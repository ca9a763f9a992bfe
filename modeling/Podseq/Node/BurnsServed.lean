import Podseq.Node.CanonicalToken

/-! # Burns below the block cursor

The block cursor moves past a range once the burns of its registered tokens are released. The
scan of a start without a usable file moves it past the head and reads no burns at all: what
was outstanding then is lost, and so is a burn of a token the registry lacks when a pass
fetches its logs.
-/
namespace Podseq.Node
open Podseq.Lib Podseq.Move Podseq.Solidity

namespace BridgeWorld

variable {types : CoinTypeSyntax} {R : EvmAddress} {w w' : BridgeWorld} {a : Action}
  {relayer : Relayer} {burn : Burn} {rpc : Rpc}

/-- A `withdraw` call for the burn has succeeded. -/
def Served (w : BridgeWorld) (burn : Burn) : Prop := ∃ coin, (coin, burn) ∈ w.served

/-- The burn of a token that the factory lists is logged and not released. -/
structure Outstanding (w : BridgeWorld) (burn : Burn) : Prop where
  logged : burn ∈ burnsOf w.chain.logs
  listed : w.chain.Listed burn.token
  unserved : ¬ w.Served burn

/-- No burn is outstanding when the scan of a start leaves it behind, or when a pass fetches the
logs of its range without the token. -/
def ReleasesAll (w : BridgeWorld) : Action → Prop
  | .index _ _ => ∀ cursors head tokens chunk start,
      w.process = .indexing cursors head tokens chunk start → head < start →
        ∀ burn, w.Outstanding burn → head < burn.block
  | .relay _ _ => ∀ relayer latest, w.process = .running relayer →
      relayer.phase = .fetching latest → ∀ burn, w.Outstanding burn → burn.block ≤ latest →
        burn.token ∈ relayer.tokens.addresses
  | _ => True

/-! ## Burns and logs -/

theorem ofLog_block {log : Nat × Log} (h : Burn.ofLog log = some burn) : burn.block = log.1 := by
  unfold Burn.ofLog at h
  split at h
  · cases h
    rfl
  · cases h

theorem mem_burnsOf_logsIn {chain : Chain} {lo hi : Nat} (h : burn ∈ burnsOf chain.logs)
    (hlo : lo ≤ burn.block) (hhi : burn.block ≤ hi) : burn ∈ burnsOf (chain.logsIn lo hi) := by
  obtain ⟨log, hlog, hburn⟩ := List.mem_filterMap.1 h
  rw [ofLog_block hburn] at hlo hhi
  refine List.mem_filterMap.2 ⟨log, List.mem_filter.2 ⟨hlog, ?_⟩, hburn⟩
  simpa using ⟨hlo, hhi⟩

/-- A token with a burn in its logs has burnt something. -/
theorem burnsIn_ne_nil {chain : Chain} (h : burn ∈ burnsOf chain.logs) :
    Bridge.burnsIn (chain.eventsOf burn.token) ≠ [] := by
  obtain ⟨⟨block, log⟩, hlog, hburn⟩ := List.mem_filterMap.1 h
  unfold Burn.ofLog at hburn
  split at hburn
  · rename_i token nonce sender recipient amount heq
    cases heq
    cases hburn
    have hevent : .withdrawalInitiated nonce sender recipient amount ∈ chain.eventsOf token :=
      List.mem_filterMap.2 ⟨_, hlog, if_pos rfl⟩
    exact List.ne_nil_of_mem (List.mem_filterMap.2 ⟨_, hevent, rfl⟩)
  · cases hburn

/-! ## What stays outstanding -/

/-- No call is taken back. -/
theorem served_keep (hw : Base types R w) (h : Effect types R w a w') {e : Bytes × Burn}
    (he : e ∈ w.served) : e ∈ w'.served := by
  cases h with
  | mine hrun =>
    have hm := (hw.mine hrun).2
    change e ∈ (BridgeWorld.sealBlock _).served
    rw [hm.rest]
    exact he
  | indexed => exact served_persist.symm ▸ he
  | @moves rpc disk relayer _ hp hm =>
    cases hm with
    | minted | confirmed | unlisted | done => exact served_persist.symm ▸ he
    | @created latest record _ _ token =>
      obtain ⟨relayer', heq, -⟩ := ensureToken_run w relayer latest record token
      rw [heq]
      exact he
    | released => exact List.mem_cons_of_mem _ he
    | _ => exact he
  | _ => exact he

/-- A burn becomes outstanding in a new block only. -/
theorem outstanding_effect (hw : Base types R w) (h : Effect types R w a w')
    (hburn : w'.Outstanding burn) : w.Outstanding burn ∨ w.chain.head < burn.block := by
  obtain ⟨hlogged, hlisted, hunserved⟩ := hburn
  have hlater := (grows_effect hw h).later
  obtain ⟨new, hnew, hblock⟩ := hlater.logs
  rw [burnsOf, hnew, List.filterMap_append, List.mem_append] at hlogged
  rcases hlogged with hlogged | hlogged
  · refine .inl ⟨hlogged, (hlater.unlisted hlisted).resolve_right (burnsIn_ne_nil hlogged), ?_⟩
    rintro ⟨coin, hserved⟩
    exact hunserved ⟨coin, served_keep hw h hserved⟩
  · obtain ⟨log, hlog, hofLog⟩ := List.mem_filterMap.1 hlogged
    exact .inr (ofLog_block hofLog ▸ hblock log hlog)

/-- Where the burns a pass is about to release come from. -/
theorem releasing_cases (hw : Base types R w) (h : Effect types R w a w') {latest : Nat}
    {burns : List Burn} (hp' : w'.process = .running relayer)
    (hphase : relayer.phase = .releasing latest burns) :
    w.process = .running relayer ∨
    (∃ before rpc disk, a = .relay rpc disk ∧ w.process = .running before ∧
      before.phase = .fetching latest ∧ relayer.cursors = before.cursors ∧
      burns = (burnsOf (w.chain.logsIn before.cursors.nextL2Block latest)).filter
        fun burn => burn.token ∈ before.tokens.addresses) ∨
    ∃ before burn coin, w.process = .running before ∧
      before.phase = .releasing latest (burn :: burns) ∧ (coin, burn) ∈ w'.served := by
  cases h with
  | stay | deposit | lostFile | downgraded | restoredFile => exact .inl hp'
  | mine hrun =>
    have hm := (hw.mine hrun).2
    change (BridgeWorld.sealBlock _).process = _ at hp'
    rw [hm.rest] at hp'
    exact .inl hp'
  | down | scan | scanned | narrowed => cases hp'
  | restored | indexed | rest | beginDeposits | beginWithdrawals =>
    cases hp'
    cases hphase
  | @moves rpc disk before _ hp hm =>
    cases hm with
    | stay => exact .inl hp'
    | @created latest record _ _ token =>
      obtain ⟨relayer', heq, -, hends⟩ := ensureToken_run w before latest record token
      rw [heq] at hp'
      cases hp'
      rw [hphase] at hends
      rcases hends with hends | ⟨_, hends⟩ <;> cases hends
    | fetched hfetching =>
      cases hp'
      cases hphase
      exact .inr (.inl ⟨_, _, _, rfl, hp, hfetching, rfl, rfl⟩)
    | released hreleasing =>
      cases hp'
      cases hphase
      exact .inr (.inr ⟨_, _, _, hp, hreleasing, List.mem_cons_self⟩)
    | _ =>
      cases hp'
      cases hphase

/-! ## No burn below a cursor is outstanding -/

structure Unskipped (w : BridgeWorld) : Prop where
  cursors : ∀ {c}, w.Holds c → ∀ {burn}, w.Outstanding burn → c.nextL2Block ≤ burn.block
  releasing : ∀ {relayer latest burns}, w.process = .running relayer →
    relayer.phase = .releasing latest burns →
      ∀ {burn}, w.Outstanding burn → burn.block ≤ latest → burn ∈ burns

/-- What is outstanding after a step is not below the cursors from before it. -/
theorem Unskipped.later (hu : Unskipped w) (hw : Base types R w) (hb : Bounded w)
    (h : Effect types R w a w') (hburn : w'.Outstanding burn) {c : Cursors} (hc : w.Holds c) :
    c.nextL2Block ≤ burn.block := by
  rcases outstanding_effect hw h hburn with hburn | hlt
  · exact hu.cursors hc hburn
  · exact (hb.cursors hc).trans hlt

/-- A pass moves the cursor past nothing that is outstanding. -/
theorem Unskipped.released {latest : Nat} {disk : Disk} (hu : Unskipped w)
    (hok : ReleasesAll w (.relay rpc disk)) (hp : w.process = .running relayer)
    (hr : Released relayer latest) (hburn : w.Outstanding burn) : latest < burn.block := by
  by_contra hle
  cases hr with
  | unlisted hphase hnil =>
    have hmem := hok relayer latest hp hphase burn hburn (Nat.not_lt.1 hle)
    rw [hnil] at hmem
    cases hmem
  | done hphase => cases hu.releasing hp hphase hburn (Nat.not_lt.1 hle)

/-- What is outstanding in the range of a pass was so before. -/
theorem outstanding_before {latest : Nat} (hw : Base types R w) (hb : Bounded w)
    (h : Effect types R w a w') (hp : w.process = .running relayer)
    (hrange : range relayer.phase = some latest) (hburn : w'.Outstanding burn)
    (hle : burn.block ≤ latest) : w.Outstanding burn := by
  have hhead := (hb.running hp hrange).1
  exact (outstanding_effect hw h hburn).resolve_right fun hlt => by omega

theorem Unskipped.effect (hu : Unskipped w) (hw : Base types R w) (hb : Bounded w)
    (hok : ReleasesAll w a) (h : Effect types R w a w') : Unskipped w' := by
  refine ⟨fun {c} hc {burn} hburn => ?_,
    fun {relayer latest burns} hp' hphase {burn} hburn hle => ?_⟩
  · obtain (hc | rfl | ⟨cursors, hfile, rfl⟩) |
      ⟨rpc, disk, cursors, head, tokens, chunk, start, rfl, hp, hlt, rfl⟩ |
      ⟨rpc, disk, relayer, rfl, hp, hm⟩ := holds_cases hw h hc
    · exact hu.later hw hb h hburn hc
    · exact Nat.zero_le _
    · have hle := hu.later hw hb h hburn (.file hfile)
      exact hle
    · rcases outstanding_effect hw h hburn with hburn | hnew
      · exact hok _ _ _ _ _ hp hlt burn hburn
      · exact Nat.lt_of_le_of_lt (hb.indexing hp).1 hnew
    · rcases holds_moves hp hm hc with hc | hproduces
      · exact hu.later hw hb h hburn hc
      · cases hproduces with
        | default => exact Nat.zero_le _
        | downgraded hfile =>
          have hle := hu.later hw hb h hburn (.file hfile)
          exact hle
        | advanced hp' =>
          have hle := hu.later hw hb h hburn (.running hp')
          exact hle
        | @finished relayer' latest hp' hr =>
          have hrange : range relayer'.phase = some latest := by
            cases hr with
            | unlisted hphase => rw [hphase, range]
            | done hphase => rw [hphase, range]
          by_contra hlt
          have hburn := outstanding_before hw hb h hp' hrange hburn (Nat.not_lt.1 hlt)
          exact hlt (hu.released hok hp' hr hburn)
        | indexed hp' => cases hp.symm.trans hp'
  · obtain hp | ⟨before, rpc, disk, rfl, hp, hfetching, hcursors, rfl⟩ |
      ⟨before, served, coin, hp, hreleasing, hserved⟩ := releasing_cases hw h hp' hphase
    · have hburn := outstanding_before hw hb h hp (by rw [hphase, range]) hburn hle
      exact hu.releasing hp hphase hburn hle
    · have hburn := outstanding_before hw hb h hp (by rw [hfetching, range]) hburn hle
      have hmem := mem_burnsOf_logsIn hburn.logged (hu.cursors (.running hp) hburn) hle
      have htoken := hok before latest hp hfetching burn hburn hle
      exact List.mem_filter.2 ⟨hmem, decide_eq_true htoken⟩
    · have hburn' := outstanding_before hw hb h hp (by rw [hreleasing, range]) hburn hle
      rcases List.mem_cons.1 (hu.releasing hp hreleasing hburn' hle) with rfl | hmem
      · exact absurd ⟨coin, hserved⟩ hburn.unserved
      · exact hmem

theorem start_unskipped (h : Start R w) : Unskipped w := by
  obtain ⟨hR, id, predeploy, rfl⟩ := h
  exact ⟨fun _ _ hburn => (List.not_mem_nil hburn.logged).elim, (nomatch ·)⟩

theorem reachable_unskipped
    (h : Reachable (Start R) (guarded ReleasesAll (enabled (exec types R))) w) : Unskipped w :=
  h.inv_of (J := fun w => Base types R w ∧ Bounded w)
    (fun _ hr => ⟨reachable_base hr.of_guarded, reachable_bounded hr.of_guarded⟩)
    (fun _ => start_unskipped)
    fun _ _ _ hj _ hu hs => hu.effect hj.1 hj.2 hs.1 (exec_effect hs.2)

/-- In a run whose steps meet the condition, every burn of a listed token below a block cursor,
in memory or on disk, has had a `withdraw` call that succeeded. -/
theorem burnt_served (h : Reachable (Start R) (guarded ReleasesAll (enabled (exec types R))) w)
    {c : Cursors} (hc : w.Holds c) (hlogged : burn ∈ burnsOf w.chain.logs)
    (hlisted : w.chain.Listed burn.token) (hbelow : burn.block < c.nextL2Block) :
    w.Served burn := by
  by_contra hunserved
  have hle := (reachable_unskipped h).cursors hc ⟨hlogged, hlisted, hunserved⟩
  omega

/-! ## Runs -/

/-- The last block of the range a pass is about to fetch. -/
def fetchingUpTo : Phase → Option Nat
  | .fetching latest => some latest
  | _ => none

/-- A check of the condition, with all burns for those of listed tokens. -/
def checkReleases (w : BridgeWorld) (a : Action) : Bool :=
  match a, w.process with
  | .index _ _, .indexing _ head _ _ _ => (burnsOf w.chain.logs).all fun burn =>
      head < burn.block || w.served.any fun e => e.2 = burn
  | .relay _ _, .running relayer => (fetchingUpTo relayer.phase).all fun latest =>
      (burnsOf w.chain.logs).all fun burn =>
        latest < burn.block || relayer.tokens.addresses.contains burn.token ||
          w.served.any fun e => e.2 = burn
  | _, _ => true

theorem releasesAll_of_check (h : checkReleases w a) : ReleasesAll w a := by
  have hserved : ∀ burn, w.Outstanding burn → (w.served.any fun e => e.2 = burn) = false := by
    intro burn hburn
    rw [List.any_eq_false]
    intro e he heq
    exact hburn.unserved ⟨e.1, of_decide_eq_true heq ▸ he⟩
  cases a with
  | index rpc disk =>
    intro cursors head tokens chunk start hp _ burn hburn
    simp only [checkReleases, hp, List.all_eq_true] at h
    simpa [hserved burn hburn] using h burn hburn.logged
  | relay rpc disk =>
    intro relayer latest hp hphase burn hburn hle
    simp only [checkReleases, hp, hphase, fetchingUpTo, Option.all_some, List.all_eq_true] at h
    simpa [hserved burn hburn, Nat.not_lt.2 hle] using h burn hburn.logged
  | _ => trivial

def firstBurn : Burn where
  block := 4
  token := .repeated 3
  nonce := 1
  suiRecipient := ⟨List.replicate 32 6, List.length_replicate⟩
  amount := 5

/-- A deposit is minted, and its recipient burns it in block 4. -/
def burnFirst : List Action := firstRelay [] ++ [.relay .ok .written, .relay .ok .written,
  .relay .ok .written, .mine [.relayed 1 (.repeated 4)], .relay .ok .written,
  .relay .ok .written,
  .mine [.outside (.repeated 7) .zero (.bridge (.repeated 3)
    (.initiateWithdrawal firstBurn.suiRecipient 5))]]

/-- The next pass releases the burn. -/
def serveFirst : List Action := burnFirst ++ [.relayWithdrawals .ok, .relay .ok .written,
  .relay .ok .written, .relay .ok .written, .relay .ok .written]

def bridgeAfter (as : List Action) : BridgeWorld :=
  (execAll (exec (.single suiName suiShort) (.repeated 1))
    (fresh (.repeated 1) 0 (.repeated 9)) as).getD (fresh (.repeated 1) 0 (.repeated 9))

theorem burnt_served_first : (bridgeAfter serveFirst).Served firstBurn := by
  have hrun : Run (guarded ReleasesAll (enabled (exec (.single suiName suiShort) (.repeated 1))))
      (fresh (.repeated 1) 0 (.repeated 9)) serveFirst (bridgeAfter serveFirst) :=
    run_of_check (fun _ _ => releasesAll_of_check) rfl
  have hstart : Start (.repeated 1) (fresh (.repeated 1) 0 (.repeated 9)) :=
    ⟨by decide, 0, .repeated 9, rfl⟩
  refine burnt_served ⟨_, _, hstart, hrun⟩ (.running rfl) ?_ ⟨by decide, suiName, rfl⟩ (by decide)
  exact List.mem_singleton.2 rfl

/-- The relayer restarts without its file, and the scan moves the cursor past the burn. -/
theorem burn_left_behind : ∃ c : Cursors,
    Reachable (Start (.repeated 1)) (enabled (exec (.single suiName suiShort) (.repeated 1)))
      (bridgeAfter (burnFirst ++ restartWithoutFile)) ∧
    (bridgeAfter (burnFirst ++ restartWithoutFile)).Holds c ∧
    (bridgeAfter (burnFirst ++ restartWithoutFile)).Outstanding firstBurn ∧
    firstBurn.block < c.nextL2Block := by
  have hrun : Run (enabled (exec (.single suiName suiShort) (.repeated 1)))
      (fresh (.repeated 1) 0 (.repeated 9)) (burnFirst ++ restartWithoutFile)
      (bridgeAfter (burnFirst ++ restartWithoutFile)) := run_of_execAll rfl
  have hstart : Start (.repeated 1) (fresh (.repeated 1) 0 (.repeated 9)) :=
    ⟨by decide, 0, .repeated 9, rfl⟩
  refine ⟨_, ⟨_, _, hstart, hrun⟩, .running rfl, ⟨?_, ⟨by decide, suiName, rfl⟩, ?_⟩, by decide⟩
  · exact List.mem_singleton.2 rfl
  · rintro ⟨coin, hserved⟩
    cases hserved

end BridgeWorld

end Podseq.Node
