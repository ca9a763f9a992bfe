import Podseq.Node.RotationPlans

/-! # The key the node signs with

Adoption is an effect in memory: a restart is back on the configured key, and only a record that
still names the previous authority tells the node to adopt again. After the retirement no record
does, and after a rotation back the guard still says that the staged key is adopted. The polls
read the records as they stand on the ledger, as in `KeyRotation`; the program's own reader finds
none.
-/
namespace Podseq.Node
open Podseq.Lib Podseq.Move Podseq.Move.Rotation

namespace KeyRotation

variable {κ : Type} {targets : RotationTargets} {chain chain' : RotationChain κ}
  {key : Address} {rs rv st : RotationState} {nowMs : Nat} {id : ObjectId}

/-! ## The gate and the guard -/

/-- The gate of the object lets the key through now. -/
def Accepts (chain : RotationChain κ) (id : ObjectId) (key : Address) : Prop :=
  ∃ g, chain.objects id = some g ∧ assertCanAct g chain.now key = .ok ()

theorem prevInGrace_iff : prevInGrace st nowMs key ↔ InGrace st nowMs key := by
  unfold prevInGrace InGrace
  cases st.prev <;> simp

theorem accepts_iff (hst : recordOf chain id = some st) :
    Accepts chain id key ↔ key = st.authority ∨ InGrace st chain.now key := by
  obtain ⟨g, hg, hrec⟩ := recordOf_eq_some.1 hst
  simp only [Accepts, assertCanAct_eq_ok, CanAct, prevInGrace_iff]
  constructor
  · rintro ⟨g₁, hg₁, st₁, hst₁, h⟩
    rw [hg] at hg₁; cases hg₁
    rw [hrec] at hst₁; cases hst₁
    exact h
  · intro h
    exact ⟨g, hg, st, hrec, h⟩

/-- The signer holds the staged key exactly when the guard says that it was adopted. -/
def SignerInv (targets : RotationTargets) (s : RotatingNode κ) : Prop :=
  s.signer = if s.guard.adopted then targets.staged else targets.active

variable {σ : Type} {executor : Executor σ} {s s' : σ} {guard guard' : AdoptionGuard}
  {action : Action} {instant : Nat} {p : Plan}

/-- What a step of a plan that succeeds has done. -/
theorem apply_cases (h : apply p (some key) executor guard instant s = .ok (action, guard', s')) :
    ((p = .idle ∨ p = .misconfigured ∨ p = .adopt ∧ guard.adopted) ∧ guard' = guard ∧ s' = s) ∨
    (p = .claim ∧ guard' = guard ∧ executor.claim key s = .ok s') ∨
    ((p = .adopt ∨ p = .retire) ∧ guard.adopted ∧ guard' = guard ∧
      executor.retirePrevious key s = .ok s') ∨
    ((p = .adopt ∨ p = .retire) ∧ ¬ guard.adopted ∧ guard' = guard.markAdopted instant ∧
      executor.adopt key s = .ok s') := by
  cases p with
  | idle =>
    cases h
    exact .inl ⟨.inl rfl, rfl, rfl⟩
  | misconfigured =>
    cases h
    exact .inl ⟨.inr (.inl rfl), rfl, rfl⟩
  | claim =>
    simp only [apply, bind_eq_ok, pure_eq_ok, Prod.mk.injEq] at h
    obtain ⟨_, hok, -, rfl, rfl⟩ := h
    exact .inr (.inl ⟨rfl, rfl, hok⟩)
  | adopt =>
    simp only [apply] at h
    split_ifs at h with hadopted hready
    · simp only [retire, bind_eq_ok, pure_eq_ok, Prod.mk.injEq] at h
      obtain ⟨_, hok, -, rfl, rfl⟩ := h
      exact .inr (.inr (.inl ⟨.inl rfl, hadopted, rfl, hok⟩))
    · cases h
      exact .inl ⟨.inr (.inr ⟨rfl, hadopted⟩), rfl, rfl⟩
    · simp only [adopt, bind_eq_ok, pure_eq_ok, Prod.mk.injEq] at h
      obtain ⟨_, hok, -, rfl, rfl⟩ := h
      exact .inr (.inr (.inr ⟨.inl rfl, hadopted, rfl, hok⟩))
  | retire =>
    simp only [apply] at h
    split_ifs at h with hadopted
    · simp only [retire, bind_eq_ok, pure_eq_ok, Prod.mk.injEq] at h
      obtain ⟨_, hok, -, rfl, rfl⟩ := h
      exact .inr (.inr (.inl ⟨.inr rfl, hadopted, rfl, hok⟩))
    · simp only [adopt, bind_eq_ok, pure_eq_ok, Prod.mk.injEq] at h
      obtain ⟨_, hok, -, rfl, rfl⟩ := h
      exact .inr (.inr (.inr ⟨.inr rfl, hadopted, rfl, hok⟩))

/-! ## The signer and the guard -/

variable {n n' : RotatingNode κ}

/-- A poll leaves the guard saying which key the signer holds. -/
theorem applyPlan_signer (hi : SignerInv targets n)
    (h : applyPlan targets n rs rv instant = .ok (action, guard', n')) :
    SignerInv targets { n' with guard := guard' } := by
  obtain ⟨-, rfl, rfl⟩ | ⟨-, rfl, hclaim⟩ | ⟨-, -, rfl, hretire⟩ | ⟨-, -, rfl, hadopt⟩ :=
    apply_cases h
  · exact hi
  · simp only [chainSinks, swapSinks, bind_eq_ok, pure_eq_ok] at hclaim
    obtain ⟨_, -, rfl⟩ := hclaim
    exact hi
  · simp only [chainSinks, swapSinks, bind_eq_ok, pure_eq_ok] at hretire
    obtain ⟨_, -, rfl⟩ := hretire
    exact hi
  · cases hadopt
    rfl

theorem SignerInv.step {e : Event κ} (hi : SignerInv targets n)
    (hst : enabled (step targets) n e n') : SignerInv targets n' := by
  cases e with
  | call sender c =>
    simp only [enabled, KeyRotation.step, Option.map_eq_some_iff] at hst
    obtain ⟨_, -, rfl⟩ := hst
    exact hi
  | poll instant =>
    simp only [enabled, KeyRotation.step] at hst
    split at hst
    · split at hst
      · rename_i happly
        cases hst
        exact applyPlan_signer hi happly
      · cases hst
        exact hi
    · cases hst
      exact hi
  | restart =>
    cases hst
    rfl

theorem reachable_signerInv (h : Reachable (Start targets) (enabled (step targets)) n) :
    SignerInv targets n := by
  refine h.inv (fun n hn => ?_) (fun n e n' hi hst => hi.step hst)
  obtain ⟨-, -, hsigner, hguard⟩ := hn
  rw [SignerInv, hsigner, hguard]
  rfl

/-! ## When the signer is accepted -/

/-- The memory of the node fits the records: where the staged key is the only authority left, it
was adopted since the start of the process; where the configured key is the authority and there
is nothing to claim, the staged key was not adopted since, or is in its own grace. -/
def MemoryFits (targets : RotationTargets) (n : RotatingNode κ) (rs rv : RotationState) : Prop :=
  targets.active = targets.staged ∨
  ((rs.authority = targets.staged → rv.authority = targets.staged → rs.prev = none →
      rv.prev = none → n.guard.adopted) ∧
    (rs.authority = targets.active → rv.authority = targets.active →
      ¬ (Claimable rs n.chain.now targets.active targets.staged ∧
        Claimable rv n.chain.now targets.active targets.staged) → n.guard.adopted →
      InGrace rs n.chain.now targets.staged ∧ InGrace rv n.chain.now targets.staged))

/-- The key is the authority of both objects, or in grace on both. -/
theorem accepts_both_iff (hrs : recordOf chain targets.registry = some rs)
    (hrv : recordOf chain targets.vault = some rv) (heq : rs.authority = rv.authority) :
    (Accepts chain targets.registry key ∧ Accepts chain targets.vault key) ↔
      key = rs.authority ∨ InGrace rs chain.now key ∧ InGrace rv chain.now key := by
  rw [accepts_iff hrs, accepts_iff hrv, ← heq, or_and_left]

/-- While the staged key is the authority, a poll that does more than wait leaves it accepted. -/
theorem staged_accepted (hrs : recordOf n.chain targets.registry = some rs)
    (hrv : recordOf n.chain targets.vault = some rv) (has : rs.authority = targets.staged)
    (hav : rv.authority = targets.staged) (hi : SignerInv targets n)
    (hp : p = .adopt ∨ p = .retire)
    (h : apply p (some targets.staged) (chainSinks targets) n.guard instant n =
      .ok (action, guard', n')) :
    Accepts n'.chain targets.registry n'.signer ∧ Accepts n'.chain targets.vault n'.signer := by
  obtain ⟨hidle, rfl, rfl⟩ | ⟨rfl, -⟩ | ⟨-, hadopted, rfl, hretire⟩ | ⟨-, -, -, hadopt⟩ :=
    apply_cases h
  · -- the quiet interval is not over: the guard is set, so the signer is the staged key
    have hadopted : n'.guard.adopted := by
      obtain rfl | rfl := hp
      · simpa using hidle
      · simp at hidle
    have hsigner : n'.signer = targets.staged := by rw [hi, if_pos hadopted]
    rw [hsigner, accepts_iff hrs, accepts_iff hrv]
    exact ⟨.inl has.symm, .inl hav.symm⟩
  · obtain hp | hp := hp <;> cases hp
  · simp only [chainSinks, swapSinks, bind_eq_ok, pure_eq_ok] at hretire
    obtain ⟨chain', hok, rfl⟩ := hretire
    obtain ⟨-, hrs', hrv'⟩ := submitRetirePrevious_records hok hrs hrv
    have hsigner : n.signer = targets.staged := by rw [hi, if_pos hadopted]
    rw [hsigner, accepts_iff hrs', accepts_iff hrv']
    exact ⟨.inl has.symm, .inl hav.symm⟩
  · cases hadopt
    rw [accepts_iff hrs, accepts_iff hrv]
    exact ⟨.inl has.symm, .inl hav.symm⟩

/-- A claim that goes through leaves both keys accepted. -/
theorem claimed_accepted (hrs : recordOf n.chain targets.registry = some rs)
    (hrv : recordOf n.chain targets.vault = some rv) (has : rs.authority = targets.active)
    (hav : rv.authority = targets.active) (hi : SignerInv targets n)
    (h : apply .claim (some targets.staged) (chainSinks targets) n.guard instant n =
      .ok (action, guard', n')) :
    Accepts n'.chain targets.registry n'.signer ∧ Accepts n'.chain targets.vault n'.signer := by
  obtain ⟨hidle, -⟩ | ⟨-, -, hclaim⟩ | ⟨hp, -⟩ | ⟨hp, -⟩ := apply_cases h
  · obtain hp | hp | ⟨hp, -⟩ := hidle <;> cases hp
  · simp only [chainSinks, swapSinks, bind_eq_ok, pure_eq_ok] at hclaim
    obtain ⟨chain', hok, rfl⟩ := hclaim
    obtain ⟨hnow, hrs', hrv'⟩ := submitClaim_records hok hrs hrv
    rw [accepts_iff hrs', accepts_iff hrv', has, hav, hnow]
    by_cases hadopted : n.guard.adopted
    · have hsigner : n.signer = targets.staged := by rw [hi, if_pos hadopted]
      exact ⟨.inl hsigner, .inl hsigner⟩
    · have hsigner : n.signer = targets.active := by rw [hi, if_neg hadopted]
      have hgrace : InGrace ⟨targets.staged,
          some ⟨targets.active, n.chain.now + prevGraceMs⟩, none⟩ n.chain.now n.signer :=
        ⟨_, rfl, hsigner.symm, Nat.le_add_right _ _⟩
      exact ⟨.inr hgrace, .inr hgrace⟩
  · obtain hp | hp := hp <;> cases hp
  · obtain hp | hp := hp <;> cases hp

/-- Under a plan to adopt or to retire, the memory of the node fits the records. -/
theorem memoryFits_of_left (has : rs.authority = targets.staged)
    (hleft : rs.prev.isSome ∨ rv.prev.isSome) : MemoryFits targets n rs rv := by
  by_cases heq : targets.active = targets.staged
  · exact .inl heq
  · refine .inr ⟨fun _ _ hs hv => ?_, fun hact => absurd (hact.symm.trans has) heq⟩
    rw [hs, hv] at hleft
    simp at hleft

/-- **When the node signs with a key the chain accepts.** In every run of polls, restarts and
calls by anyone: after a poll whose plan is not refused and whose step succeeds, the signer is
accepted by both objects at the clock of the poll exactly when the memory of the node fitted the
records that the poll has read. -/
theorem signer_accepted_iff (hs : Reachable (Start targets) (enabled (step targets)) n)
    (hrs : recordOf n.chain targets.registry = some rs)
    (hrv : recordOf n.chain targets.vault = some rv)
    (hplan : plan rs rv n.chain.now targets.active targets.staged ≠ .misconfigured)
    (happly : applyPlan targets n rs rv instant = .ok (action, guard', n')) :
    (Accepts n'.chain targets.registry n'.signer ∧ Accepts n'.chain targets.vault n'.signer) ↔
      MemoryFits targets n rs rv := by
  have hi := reachable_signerInv hs
  have hof := planOf_plan rs rv n.chain.now targets.active targets.staged
  unfold applyPlan at happly
  generalize plan rs rv n.chain.now targets.active targets.staged = p at hof hplan happly
  cases hof with
  | idleActive hne has hav hnothing =>
    cases happly
    have hkeys : targets.active ≠ targets.staged := fun heq => hne (has.trans heq)
    rw [accepts_both_iff hrs hrv (has.trans hav.symm), hi, has]
    by_cases hadopted : n.guard.adopted
    · simp only [hadopted, if_true, MemoryFits, hkeys, hkeys.symm, false_or, has, hav,
        false_implies, true_and, true_implies]
      exact ⟨fun hgraces _ => hgraces, fun hfits => hfits hnothing⟩
    · simp only [hadopted, Bool.false_eq_true, if_false, true_or, true_iff]
      refine .inr ⟨fun hstaged => absurd hstaged hne, fun _ _ _ hset => absurd hset hadopted⟩
  -- nobody is left in grace, so only the staged key is accepted
  | idleRetired has hav hnone =>
    cases happly
    rw [accepts_both_iff hrs hrv (has.trans hav.symm), hi, has]
    by_cases hadopted : n.guard.adopted
    · simp only [hadopted, if_true, true_or, true_iff]
      by_cases heq : targets.active = targets.staged
      · exact .inl heq
      · exact .inr ⟨fun _ _ _ _ => hadopted, fun hact => absurd (hact.symm.trans has) heq⟩
    · simp only [hadopted, Bool.false_eq_true, if_false]
      constructor
      · rintro (heq | ⟨⟨q, hq, -⟩, -⟩)
        · exact .inl heq
        · rw [hnone.1] at hq; cases hq
      · rintro (heq | ⟨hfits, -⟩)
        · exact .inl heq
        · exact absurd (hfits has hav hnone.1 hnone.2) hadopted
  | claim hne hcs hcv =>
    refine ⟨fun _ => .inr ⟨fun hstaged => absurd hstaged hne, ?_⟩,
      fun _ => claimed_accepted hrs hrv hcs.1 hcv.1 hi happly⟩
    exact fun _ _ hnothing => absurd ⟨hcs, hcv⟩ hnothing
  | adopt has hav hgraces =>
    exact ⟨fun _ => memoryFits_of_left has (.inl hgraces.1.isSome),
      fun _ => staged_accepted hrs hrv has hav hi (.inl rfl) happly⟩
  | retire has hav _ hleft =>
    exact ⟨fun _ => memoryFits_of_left has hleft,
      fun _ => staged_accepted hrs hrv has hav hi (.inr rfl) happly⟩
  | misconfigured => exact absurd rfl hplan

/-- Once the adoption is old enough, a poll retires the previous authority. -/
theorem rotated_retires :
    ∃ n n' : RotatingNode Unit, Run (enabled (step deployment)) justStarted rotated n ∧
      n.chain.now = 600000 ∧
      recordOf n.chain deployment.registry = some ⟨2, some ⟨1, 1200000⟩, none⟩ ∧
      recordOf n.chain deployment.vault = some ⟨2, some ⟨1, 1200000⟩, none⟩ ∧
      applyPlan deployment n ⟨2, some ⟨1, 1200000⟩, none⟩ ⟨2, some ⟨1, 1200000⟩, none⟩ 70000 =
        .ok (.retired, ⟨some 1, 60000⟩, n') :=
  ⟨_, _, run_of_execAll rfl, rfl, rfl, rfl, rfl⟩

/-- That poll leaves the staged key accepted by both objects. -/
theorem signer_accepted_retired :
    ∃ (n n' : RotatingNode Unit) (rs rv : RotationState),
      Reachable (Start deployment) (enabled (step deployment)) n ∧
      applyPlan deployment n rs rv 70000 = .ok (.retired, ⟨some 1, 60000⟩, n') ∧
      Accepts n'.chain deployment.registry n'.signer ∧
      Accepts n'.chain deployment.vault n'.signer := by
  obtain ⟨n, n', hrun, hnow, hrs, hrv, happly⟩ := rotated_retires
  have hreach : Reachable (Start deployment) (enabled (step deployment)) n :=
    ⟨_, _, justStarted_start, hrun⟩
  have hplan : plan ⟨2, some ⟨1, 1200000⟩, none⟩ ⟨2, some ⟨1, 1200000⟩, none⟩ n.chain.now
      deployment.active deployment.staged ≠ .misconfigured := by
    rw [hnow]
    decide
  refine ⟨n, n', _, _, hreach, happly,
    (signer_accepted_iff hreach hrs hrv hplan happly).2 (.inr ⟨?_, ?_⟩)⟩
  · intro _ _ hnone
    cases hnone
  · intro hactive
    exact absurd hactive (by decide)

/-- **A restart after the retirement signs with a key that is gone.** The node claims, adopts and
retires; restarted on its configured key, it reads two records without a previous authority and
plans nothing, while neither object accepts its signer. -/
theorem restart_keeps_retired_key :
    ¬ ∀ (targets : RotationTargets) (n n' : RotatingNode Unit) (rs rv : RotationState)
        (instant : Nat) (action : Action) (guard' : AdoptionGuard),
      Reachable (Start targets) (enabled (step targets)) n →
      recordOf n.chain targets.registry = some rs → recordOf n.chain targets.vault = some rv →
      plan rs rv n.chain.now targets.active targets.staged ≠ .misconfigured →
      applyPlan targets n rs rv instant = .ok (action, guard', n') →
      Accepts n'.chain targets.registry n'.signer ∧ Accepts n'.chain targets.vault n'.signer := by
  intro h
  have hreach : Reachable (Start deployment) (enabled (step deployment)) _ :=
    ⟨_, rotated ++ [.poll 70000, .restart], justStarted_start, run_of_execAll rfl⟩
  obtain ⟨haccepts, -⟩ := h deployment _ _ ⟨2, none, none⟩ ⟨2, none, none⟩ 0 .idle
    (.new 60000) hreach rfl rfl (by decide) rfl
  obtain hsigner | ⟨q, hq, -⟩ := (accepts_iff rfl).1 haccepts
  · exact absurd hsigner (by decide)
  · cases hq

end KeyRotation

end Podseq.Node
