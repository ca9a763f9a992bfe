import Podseq.Node.KeyRotation

/-! # Planned steps on the chain

The planner decides from two records with combined conditions, while a transaction over both
objects aborts if one half does. The claims line up, up to overflows of the clock. A retirement
does not when one object alone still has a previous authority, and the records no longer say
which key a node that has just started should sign with. The records are those on the ledger, as
in `KeyRotation`, whatever the program's own reader makes of them.
-/
namespace Podseq.Node
open Podseq.Lib Podseq.Move Podseq.Move.Rotation

namespace KeyRotation

variable {κ : Type} {targets : RotationTargets} {chain chain' : RotationChain κ}
  {key active staged : Address} {rs rv st : RotationState} {nowMs : Nat} {id id' : ObjectId}

/-! ## The two-call transactions -/

theorem recordOf_eq_some : recordOf chain id = some st ↔
    ∃ g, chain.objects id = some g ∧ g.record = some st := by
  simp [recordOf, Option.bind_eq_some_iff]

theorem recordOf_put_self {g : Guarded κ} : recordOf (chain.put id g) id = g.record := by
  simp [recordOf, RotationChain.put]

theorem recordOf_put_of_ne {g : Guarded κ} (h : id' ≠ id) :
    recordOf (chain.put id g) id' = recordOf chain id' := by
  simp [recordOf, RotationChain.put, Function.update_of_ne h]

/-- A claim of one object succeeds, with the record it leaves. -/
theorem call_claim (hst : recordOf chain id = some st) :
    chain.call key (.claimRotation id) = .ok chain' ↔
      (∃ p, st.pending = some p ∧ key = p.toAddr ∧ p.eligibleAtMs ≤ chain.now ∧
        p.eligibleAtMs + claimWindowMs ≤ u64Max ∧ chain.now ≤ p.eligibleAtMs + claimWindowMs) ∧
      chain.now + prevGraceMs ≤ u64Max ∧
      ∃ g, chain.objects id = some g ∧ chain' = chain.put id { g with
        record := some ⟨key, some ⟨st.authority, chain.now + prevGraceMs⟩, none⟩ } := by
  obtain ⟨g, hg, hrec⟩ := recordOf_eq_some.1 hst
  simp only [RotationChain.call, bind_eq_ok, World.input_eq_ok, claimRotation_eq_ok, pure_eq_ok]
  constructor
  · rintro ⟨g₁, hg₁, _, ⟨st₁, p, hst₁, hp, hto, helig, hfit, hwin, hgrace, rfl⟩, rfl⟩
    rw [hg] at hg₁; cases hg₁
    rw [hrec] at hst₁; cases hst₁
    exact ⟨⟨p, hp, hto, helig, hfit, hwin⟩, hgrace, g, hg, rfl⟩
  · rintro ⟨⟨p, hp, hto, helig, hfit, hwin⟩, hgrace, g₁, hg₁, rfl⟩
    rw [hg] at hg₁; cases hg₁
    exact ⟨g, hg, _, ⟨st, p, hrec, hp, hto, helig, hfit, hwin, hgrace, rfl⟩, rfl⟩

theorem call_retire (hst : recordOf chain id = some st) :
    chain.call key (.retirePrevious id) = .ok chain' ↔
      key = st.authority ∧ st.prev.isSome ∧
      ∃ g, chain.objects id = some g ∧
        chain' = chain.put id { g with record := some { st with prev := none } } := by
  obtain ⟨g, hg, hrec⟩ := recordOf_eq_some.1 hst
  simp only [RotationChain.call, bind_eq_ok, World.input_eq_ok, retirePrevious_eq_ok, pure_eq_ok]
  constructor
  · rintro ⟨g₁, hg₁, _, ⟨st₁, hst₁, hauth, hprev, rfl⟩, rfl⟩
    rw [hg] at hg₁; cases hg₁
    rw [hrec] at hst₁; cases hst₁
    exact ⟨hauth, hprev, g, hg, rfl⟩
  · rintro ⟨hauth, hprev, g₁, hg₁, rfl⟩
    rw [hg] at hg₁; cases hg₁
    exact ⟨g, hg, _, ⟨st, hrec, hauth, hprev, rfl⟩, rfl⟩

/-- What a claim needs of one record. -/
def ClaimSucceeds (st : RotationState) (nowMs : Nat) (key : Address) : Prop :=
  (∃ p, st.pending = some p ∧ key = p.toAddr ∧ p.eligibleAtMs ≤ nowMs ∧
    p.eligibleAtMs + claimWindowMs ≤ u64Max ∧ nowMs ≤ p.eligibleAtMs + claimWindowMs) ∧
    nowMs + prevGraceMs ≤ u64Max

/-- The two claims succeed exactly when each would, and flip both records. -/
theorem submitClaim_iff (hrs : recordOf chain targets.registry = some rs)
    (hrv : recordOf chain targets.vault = some rv) :
    (∃ chain', submitClaim targets key chain = .ok chain') ↔
      ClaimSucceeds rs chain.now key ∧ ClaimSucceeds rv chain.now key := by
  simp only [submitClaim, bind_eq_ok, call_claim hrs]
  constructor
  · rintro ⟨_, _, ⟨hp, hgrace, g, hg, rfl⟩, hcall⟩
    obtain ⟨hp', hgrace', -⟩ :=
      (call_claim ((recordOf_put_of_ne targets.distinct).trans hrv)).1 hcall
    exact ⟨⟨hp, hgrace⟩, hp', hgrace'⟩
  · rintro ⟨⟨hp, hgrace⟩, hp', hgrace'⟩
    obtain ⟨g, hg, -⟩ := recordOf_eq_some.1 hrs
    obtain ⟨g', hg', -⟩ := recordOf_eq_some.1 hrv
    exact ⟨_, _, ⟨hp, hgrace, g, hg, rfl⟩,
      (call_claim ((recordOf_put_of_ne targets.distinct).trans hrv)).2
        ⟨hp', hgrace', g', (Function.update_of_ne targets.distinct _ _).trans hg', rfl⟩⟩

theorem submitClaim_records (h : submitClaim targets key chain = .ok chain')
    (hrs : recordOf chain targets.registry = some rs)
    (hrv : recordOf chain targets.vault = some rv) :
    chain'.now = chain.now ∧
    recordOf chain' targets.registry =
      some ⟨key, some ⟨rs.authority, chain.now + prevGraceMs⟩, none⟩ ∧
    recordOf chain' targets.vault =
      some ⟨key, some ⟨rv.authority, chain.now + prevGraceMs⟩, none⟩ := by
  simp only [submitClaim, bind_eq_ok, call_claim hrs] at h
  obtain ⟨_, ⟨-, -, g, -, rfl⟩, hcall⟩ := h
  obtain ⟨-, -, g', -, rfl⟩ :=
    (call_claim ((recordOf_put_of_ne targets.distinct).trans hrv)).1 hcall
  refine ⟨rfl, ?_, recordOf_put_self⟩
  rw [recordOf_put_of_ne targets.distinct.symm, recordOf_put_self]

theorem submitRetirePrevious_iff (hrs : recordOf chain targets.registry = some rs)
    (hrv : recordOf chain targets.vault = some rv) :
    (∃ chain', submitRetirePrevious targets key chain = .ok chain') ↔
      (key = rs.authority ∧ rs.prev.isSome) ∧ key = rv.authority ∧ rv.prev.isSome := by
  simp only [submitRetirePrevious, bind_eq_ok, call_retire hrs]
  constructor
  · rintro ⟨_, _, ⟨hauth, hprev, g, hg, rfl⟩, hcall⟩
    obtain ⟨hauth', hprev', -⟩ :=
      (call_retire ((recordOf_put_of_ne targets.distinct).trans hrv)).1 hcall
    exact ⟨⟨hauth, hprev⟩, hauth', hprev'⟩
  · rintro ⟨⟨hauth, hprev⟩, hauth', hprev'⟩
    obtain ⟨g, hg, -⟩ := recordOf_eq_some.1 hrs
    obtain ⟨g', hg', -⟩ := recordOf_eq_some.1 hrv
    exact ⟨_, _, ⟨hauth, hprev, g, hg, rfl⟩,
      (call_retire ((recordOf_put_of_ne targets.distinct).trans hrv)).2
        ⟨hauth', hprev', g', (Function.update_of_ne targets.distinct _ _).trans hg', rfl⟩⟩

theorem submitRetirePrevious_records (h : submitRetirePrevious targets key chain = .ok chain')
    (hrs : recordOf chain targets.registry = some rs)
    (hrv : recordOf chain targets.vault = some rv) :
    chain'.now = chain.now ∧
    recordOf chain' targets.registry = some { rs with prev := none } ∧
    recordOf chain' targets.vault = some { rv with prev := none } := by
  simp only [submitRetirePrevious, bind_eq_ok, call_retire hrs] at h
  obtain ⟨_, ⟨-, -, g, -, rfl⟩, hcall⟩ := h
  obtain ⟨-, -, g', -, rfl⟩ :=
    (call_retire ((recordOf_put_of_ne targets.distinct).trans hrv)).1 hcall
  refine ⟨rfl, ?_, recordOf_put_self⟩
  rw [recordOf_put_of_ne targets.distinct.symm, recordOf_put_self]

/-! ## What a poll sends -/

inductive Sent
  | claim | adopt | retirePrevious
deriving DecidableEq, Repr

/-- An executor that writes down what it is asked for. -/
def recorder : Executor (List Sent) where
  claim _ sent := .ok (.claim :: sent)
  adopt _ sent := .ok (.adopt :: sent)
  retirePrevious _ sent := .ok (.retirePrevious :: sent)

def sent (plan : Plan) (stagedKey : Option Address) (guard : AdoptionGuard) (instant : Nat) :
    List Sent :=
  match apply plan stagedKey recorder guard instant [] with
  | .ok (_, _, sent) => sent
  | .error _ => []

theorem retirePrevious_mem_sent {p : Plan} {guard : AdoptionGuard} {instant : Nat} :
    .retirePrevious ∈ sent p (some key) guard instant ↔
      guard.adopted ∧ (p = .retire ∨ p = .adopt ∧ guard.retireReady instant) := by
  cases p with
  | idle => simp [sent, apply]
  | claim => simp [sent, apply, recorder, bind, Except.bind, pure, Except.pure]
  | misconfigured => simp [sent, apply]
  | adopt =>
    by_cases ha : guard.adopted <;> by_cases hr : guard.retireReady instant <;>
      simp [sent, apply, ha, hr, retire, adopt, recorder, bind, Except.bind, pure, Except.pure]
  | retire =>
    by_cases ha : guard.adopted <;>
      simp [sent, apply, ha, retire, adopt, recorder, bind, Except.bind, pure, Except.pure]

theorem deriveRole_claimable (hne : active ≠ staged) (h : Claimable st nowMs active staged) :
    deriveRole st nowMs active staged = .claimReady := by
  obtain ⟨hauth, p, hp, hto, helig, hlate⟩ := h
  have hfar : ¬ st.authority = staged := fun heq => hne (hauth.symm.trans heq)
  rw [deriveRole, if_neg hfar, if_pos hauth, hp]
  simp only [if_pos hto, if_neg (Nat.not_lt_of_le helig), if_pos hlate]

theorem deriveRole_staged (hauth : st.authority = staged) (h : ¬ InGrace st nowMs active) :
    deriveRole st nowMs active staged = .stagedIsAuthority := by
  rw [deriveRole, if_pos hauth]
  split
  · rename_i q hq
    exact if_neg fun hg => h ⟨q, hq, hg⟩
  · rfl

theorem plan_claimable (hne : active ≠ staged) (hs : Claimable rs nowMs active staged)
    (hv : Claimable rv nowMs active staged) : plan rs rv nowMs active staged = .claim := by
  rw [plan, deriveRole_claimable hne hs, deriveRole_claimable hne hv]

theorem plan_staged (has : rs.authority = staged) (hav : rv.authority = staged)
    (hs : ¬ InGrace rs nowMs active) (hv : ¬ InGrace rv nowMs active) :
    plan rs rv nowMs active staged =
      if rs.prev.isSome ∨ rv.prev.isSome then .retire else .idle := by
  rw [plan, deriveRole_staged has hs, deriveRole_staged hav hv]

/-! ## Which planned steps succeed -/

/-- The clock leaves room for the sums of the two claims. -/
def ClaimFits (targets : RotationTargets) (nowMs : Nat) (rs rv : RotationState) : Prop :=
  Claimable rs nowMs targets.active targets.staged →
  Claimable rv nowMs targets.active targets.staged →
    (∀ p, rs.pending = some p → p.eligibleAtMs + claimWindowMs ≤ u64Max) ∧
    (∀ p, rv.pending = some p → p.eligibleAtMs + claimWindowMs ≤ u64Max) ∧
    nowMs + prevGraceMs ≤ u64Max

/-- Once the staged key is adopted and the old one out of its grace, both objects have a
previous authority or none has. -/
def RetireFits (targets : RotationTargets) (nowMs : Nat) (rs rv : RotationState)
    (guard : AdoptionGuard) : Prop :=
  guard.adopted → rs.authority = targets.staged → rv.authority = targets.staged →
  ¬ InGrace rs nowMs targets.active → ¬ InGrace rv nowMs targets.active →
    (rs.prev.isSome ↔ rv.prev.isSome)

theorem Claimable.succeeds (h : Claimable st nowMs active staged)
    (hfit : ∀ p, st.pending = some p → p.eligibleAtMs + claimWindowMs ≤ u64Max)
    (hgrace : nowMs + prevGraceMs ≤ u64Max) : ClaimSucceeds st nowMs staged := by
  obtain ⟨-, p, hp, hto, helig, hlate⟩ := h
  have hwin := hfit p hp
  unfold saturatingAdd at hlate
  exact ⟨⟨p, hp, hto.symm, helig, hwin, by omega⟩, hgrace⟩

theorem ClaimSucceeds.claimable (h : ClaimSucceeds st nowMs staged)
    (hauth : st.authority = active) : Claimable st nowMs active staged := by
  obtain ⟨⟨p, hp, hto, helig, hwin, hlate⟩, -⟩ := h
  refine ⟨hauth, p, hp, hto.symm, helig, ?_⟩
  unfold saturatingAdd
  omega

theorem ClaimSucceeds.fits (h : ClaimSucceeds st nowMs key) :
    (∀ p, st.pending = some p → p.eligibleAtMs + claimWindowMs ≤ u64Max) ∧
      nowMs + prevGraceMs ≤ u64Max := by
  obtain ⟨⟨p, hp, -, -, hwin, -⟩, hgrace⟩ := h
  refine ⟨fun q hq => ?_, hgrace⟩
  rw [hp] at hq; cases hq
  exact hwin

theorem InGrace.isSome (h : InGrace st nowMs active) : st.prev.isSome := by
  obtain ⟨q, hq, -⟩ := h
  rw [hq]; rfl

/-- **Which planned steps succeed.** For any two records, clock and guard: the claim planned and
the retirement sent go through, and a claim of both that would go through is planned, exactly
when the sums of the claims fit the clock and the retirement finds a previous authority on both
objects. -/
theorem planned_steps_succeed_iff (hdiff : targets.active ≠ targets.staged)
    (hrs : recordOf chain targets.registry = some rs)
    (hrv : recordOf chain targets.vault = some rv) (guard : AdoptionGuard) :
    ((plan rs rv chain.now targets.active targets.staged = .claim →
        ∃ chain', submitClaim targets targets.staged chain = .ok chain') ∧
      (∀ instant, .retirePrevious ∈ sent (plan rs rv chain.now targets.active targets.staged)
          (some targets.staged) guard instant →
        ∃ chain', submitRetirePrevious targets targets.staged chain = .ok chain') ∧
      ((∃ chain', submitClaim targets targets.staged chain = .ok chain') →
        rs.authority = targets.active → rv.authority = targets.active →
        plan rs rv chain.now targets.active targets.staged = .claim)) ↔
    ClaimFits targets chain.now rs rv ∧ RetireFits targets chain.now rs rv guard := by
  simp only [submitClaim_iff hrs hrv, submitRetirePrevious_iff hrs hrv, retirePrevious_mem_sent]
  constructor
  · rintro ⟨hclaim, hretire, -⟩
    refine ⟨fun hcs hcv => ?_, fun hadopted has hav hos hov => ?_⟩
    · obtain ⟨hs, hv⟩ := hclaim (plan_claimable hdiff hcs hcv)
      exact ⟨hs.fits.1, hv.fits.1, hs.fits.2⟩
    · have hplan := plan_staged has hav hos hov
      by_cases hleft : rs.prev.isSome ∨ rv.prev.isSome
      · rw [if_pos hleft] at hplan
        obtain ⟨⟨-, hs⟩, -, hv⟩ := hretire 0 ⟨hadopted, .inl hplan⟩
        exact ⟨fun _ => hv, fun _ => hs⟩
      · rw [not_or] at hleft
        exact ⟨fun h => absurd h hleft.1, fun h => absurd h hleft.2⟩
  · rintro ⟨hfits, hretire⟩
    have hof := planOf_plan rs rv chain.now targets.active targets.staged
    refine ⟨fun hplan => ?_, fun instant hsent => ?_, fun hok has hav => ?_⟩
    · rw [hplan] at hof
      cases hof with
      | claim _ hcs hcv =>
        obtain ⟨hs, hv, hgrace⟩ := hfits hcs hcv
        exact ⟨hcs.succeeds hs hgrace, hcv.succeeds hv hgrace⟩
    · obtain ⟨hadopted, hplan | ⟨hplan, -⟩⟩ := hsent
      · rw [hplan] at hof
        cases hof with
        | retire has hav hover hleft =>
          have hboth := hretire hadopted has hav hover.1 hover.2
          obtain hs | hv := hleft
          · exact ⟨⟨has.symm, hs⟩, hav.symm, hboth.1 hs⟩
          · exact ⟨⟨has.symm, hboth.2 hv⟩, hav.symm, hv⟩
      · rw [hplan] at hof
        cases hof with
        | adopt has hav hgraces =>
          exact ⟨⟨has.symm, hgraces.1.isSome⟩, hav.symm, hgraces.2.isSome⟩
    · exact plan_claimable hdiff (hok.1.claimable has) (hok.2.claimable hav)

/-! ### A rotation, step by step -/

/-- The Registry 0 and the Vault 1 of an operator with the configured key 1 and the staged 2. -/
def deployment : RotationTargets := ⟨0, 1, by decide, 1, 2, 60000⟩

/-- The operator entombs both objects and requests both rotations; the first poll after the
timelock claims, the next one adopts. -/
def rotated : List (Event Unit) :=
  [.call 1 .create, .call 1 .create, .call 1 (.entombOps 0 ()), .call 1 (.entombOps 1 ()),
    .call 1 (.requestRotationOps 0 2 600000 2), .call 1 (.requestRotationOps 1 2 600000 3),
    .call 9 (.tick 600000), .poll 0, .poll 1]

def justStarted : RotatingNode Unit :=
  ⟨⟨0, 0, Table.empty, Table.empty⟩, 1, .new 60000⟩

theorem justStarted_start : Start deployment justStarted := ⟨rfl, rfl, rfl, rfl⟩

theorem rotated_records :
    ∃ s, Run (enabled (step deployment)) justStarted rotated s ∧ s.guard.adopted ∧
      recordOf s.chain deployment.registry = some ⟨2, some ⟨1, 1200000⟩, none⟩ ∧
      recordOf s.chain deployment.vault = some ⟨2, some ⟨1, 1200000⟩, none⟩ :=
  ⟨_, run_of_execAll rfl, rfl, rfl, rfl⟩

/-- Right after the adoption both objects have a previous authority to retire. -/
theorem planned_steps_succeed_rotated :
    ∃ s : RotatingNode Unit, Reachable (Start deployment) (enabled (step deployment)) s ∧
      s.guard.adopted ∧ ∃ rs rv, recordOf s.chain deployment.registry = some rs ∧
        recordOf s.chain deployment.vault = some rv ∧
        ∀ instant, .retirePrevious ∈ sent (plan rs rv s.chain.now deployment.active
            deployment.staged) (some deployment.staged) s.guard instant →
          ∃ chain', submitRetirePrevious deployment deployment.staged s.chain = .ok chain' := by
  obtain ⟨s, hrun, hadopted, hrs, hrv⟩ := rotated_records
  have hdiff : deployment.active ≠ deployment.staged := by decide
  have hiff := planned_steps_succeed_iff hdiff hrs hrv s.guard
  refine ⟨s, ⟨_, _, justStarted_start, hrun⟩, hadopted, _, _, hrs, hrv, (hiff.2 ⟨?_, ?_⟩).2.1⟩
  · intro hclaimable
    exact absurd hclaimable.1 (by decide)
  · intro _ _ _ _ _
    exact Iff.rfl

/-- **A retirement of one object alone stops the planned one.** The operator retires the
previous authority of the Registry by hand; once the grace of the Vault's is over, every poll
sends a retirement of both, and the Registry aborts it. -/
theorem one_sided_retirement_fails :
    ¬ ∀ (targets : RotationTargets) (s : RotatingNode Unit) (rs rv : RotationState),
      targets.active ≠ targets.staged →
      Reachable (Start targets) (enabled (step targets)) s →
      recordOf s.chain targets.registry = some rs → recordOf s.chain targets.vault = some rv →
      (plan rs rv s.chain.now targets.active targets.staged = .claim →
        ∃ chain', submitClaim targets targets.staged s.chain = .ok chain') ∧
      (∀ instant, .retirePrevious ∈ sent (plan rs rv s.chain.now targets.active targets.staged)
          (some targets.staged) s.guard instant →
        ∃ chain', submitRetirePrevious targets targets.staged s.chain = .ok chain') ∧
      ((∃ chain', submitClaim targets targets.staged s.chain = .ok chain') →
        rs.authority = targets.active → rv.authority = targets.active →
        plan rs rv s.chain.now targets.active targets.staged = .claim) := by
  intro h
  have hreach : Reachable (Start deployment) (enabled (step deployment)) _ :=
    ⟨_, rotated ++ [.call 2 (.retirePrevious 0), .call 9 (.tick 1200001)], justStarted_start,
      run_of_execAll rfl⟩
  obtain ⟨-, hretire, -⟩ := h deployment _ ⟨2, none, none⟩ ⟨2, some ⟨1, 1200000⟩, none⟩
    (by decide) hreach rfl rfl
  obtain ⟨⟨-, hprev⟩, -⟩ := (submitRetirePrevious_iff rfl rfl).1 (hretire 0 (by decide))
  cases hprev

end KeyRotation

end Podseq.Node
