import Podseq.Lib.Runs
import Podseq.Solidity.Chain

/-! # One token a coin type, whoever calls

The relayer of the factory and those of its tokens may move, the factory may be initialized at any
time, and `Bridge` code may come to any vacant address: blank, as at genesis, or with its
constructor run. Over every such history the registry is what its events tell.
-/
namespace Podseq.Solidity
open Podseq.Lib

namespace Contracts

variable {contracts contracts' : Contracts} {sender created token a : EvmAddress} {s s' : Bytes}
  {bridge : Bridge} {logs : List Log} {call : L2Call}

/-- Every listed token is a configured bridge of that coin type, and a bridge that is not
configured has no coin type. -/
structure Registered (contracts : Contracts) : Prop where
  vacant : contracts.bridges .zero = none
  unconfigured : ∀ {a b}, contracts.bridges a = some b → b.initialized = false → b.coinType = []
  listed : ∀ {s}, contracts.factory.tokenFor s ≠ .zero →
    ∃ b, contracts.bridges (contracts.factory.tokenFor s) = some b ∧ b.initialized ∧
      b.coinType = s

namespace Registered

theorem injective (hw : Registered contracts) (h : contracts.factory.tokenFor s ≠ .zero)
    (he : contracts.factory.tokenFor s = contracts.factory.tokenFor s') : s = s' := by
  obtain ⟨b, hb, -, rfl⟩ := hw.listed h
  obtain ⟨b', hb', -, rfl⟩ := hw.listed (he ▸ h)
  rw [he, hb'] at hb
  cases hb
  rfl

/-- Nothing lists an address without a bridge. -/
theorem unlisted (hw : Registered contracts) (ha : a ≠ .zero) (hnone : contracts.bridges a = none)
    (s : Bytes) : contracts.factory.tokenFor s ≠ a := by
  intro hs
  obtain ⟨b, hb, -⟩ := hw.listed (hs.trans_ne ha)
  rw [hs, hnone] at hb
  cases hb

/-- Listing a configured bridge. -/
theorem setToken (hw : Registered contracts) (hb : contracts.bridges a = some bridge)
    (hi : bridge.initialized) (hs : bridge.coinType = s) :
    Registered (contracts.setToken s a) := by
  refine ⟨hw.vacant, hw.unconfigured, fun {s'} hs' => ?_⟩
  by_cases he : s' = s
  · subst he
    rw [setToken_self]
    exact ⟨bridge, hb, hi, hs⟩
  · rw [setToken_of_ne he] at hs' ⊢
    exact hw.listed hs'

/-- Writing a bridge that keeps its coin type, or one nothing lists. -/
theorem setBridge (hw : Registered contracts) (ha : a ≠ .zero)
    (hb : bridge.initialized = false → bridge.coinType = [])
    (hkeep : ∀ s, contracts.factory.tokenFor s = a → bridge.initialized ∧ bridge.coinType = s) :
    Registered (contracts.setBridge a bridge) := by
  refine ⟨?_, fun {x b} hx => ?_, fun {s} hs => ?_⟩
  · rw [setBridge_of_ne ha.symm, hw.vacant]
  · by_cases he : x = a
    · subst he
      rw [setBridge_self] at hx
      cases hx
      exact hb
    · rw [setBridge_of_ne he] at hx
      exact hw.unconfigured hx
  · rw [setBridge_factory] at hs ⊢
    by_cases he : contracts.factory.tokenFor s = a
    · rw [he, setBridge_self]
      exact ⟨bridge, rfl, hkeep s he⟩
    · rw [setBridge_of_ne he]
      exact hw.listed hs

/-- Writing a bridge where there was none. -/
theorem place (hw : Registered contracts) (ha : a ≠ .zero) (hnone : contracts.bridges a = none)
    (hb : bridge.initialized = false → bridge.coinType = []) :
    Registered (contracts.setBridge a bridge) :=
  hw.setBridge ha hb fun s hs => absurd hs (hw.unlisted ha hnone s)

/-- Only the registry and the bridges matter. -/
theorem of_tokenFor (hw : Registered contracts)
    (htokenFor : contracts'.factory.tokenFor = contracts.factory.tokenFor)
    (hbridges : contracts'.bridges = contracts.bridges) : Registered contracts' := by
  refine ⟨?_, ?_, ?_⟩
  · rw [hbridges]
    exact hw.vacant
  · rw [hbridges]
    exact hw.unconfigured
  · rw [hbridges, htokenFor]
    exact hw.listed

theorem exec (hw : Registered contracts)
    (h : contracts.exec sender created call = .ok (contracts', logs)) : Registered contracts' := by
  cases call with
  | initializeFactory relayer =>
    simp only [Contracts.exec, initializeFactory, bind_eq_ok, require_eq_ok, exists_const,
      pure_eq_ok, Prod.mk.injEq] at h
    obtain ⟨-, -, rfl, -⟩ := h
    exact hw.of_tokenFor rfl rfl
  | createBridge name symbol coinType =>
    obtain ⟨-, -, -, hne, hnone, -, hr⟩ := createBridge_eq_ok.1 h
    cases hr
    exact Registered.setToken (hw.place hne hnone fun hi => by cases hi) setBridge_self rfl rfl
  | adoptBridge coinType token =>
    obtain ⟨b, -, -, -, hlen, -, hb, hc, -, hr⟩ := adoptBridge_eq_ok.1 h
    cases hr
    have hi : b.initialized := by
      by_contra hni
      have hnil := hw.unconfigured hb (by simpa using hni)
      simp [← hc, hnil] at hlen
    exact hw.setToken hb hi hc
  | setFactoryRelayer next =>
    simp only [Contracts.exec, setFactoryRelayer, bind_eq_ok, require_eq_ok, exists_const,
      pure_eq_ok, Prod.mk.injEq] at h
    obtain ⟨-, -, rfl, -⟩ := h
    exact hw.of_tokenFor rfl rfl
  | bridge token bridgeCall =>
    obtain ⟨b, b', events, hb, hcall, hr⟩ := callBridge_eq_ok.1 h
    cases hr
    have hne : token ≠ .zero := fun he => by rw [he, hw.vacant] at hb; cases hb
    obtain ⟨hi, hc, -⟩ := Bridge.call_config hcall
    refine hw.setBridge hne (fun hi' => ?_) fun s hs => ?_
    · -- a bridge that is not configured was not, and its coin type is the one it had
      rcases hc with hc | ⟨-, ht⟩
      · rw [hc]
        refine hw.unconfigured hb (Bool.eq_false_iff.2 fun ht => ?_)
        simp [hi ht] at hi'
      · simp [ht] at hi'
    · obtain ⟨x, hx, hxi, hxs⟩ := hw.listed (hs.trans_ne hne)
      rw [hs, hb] at hx
      cases hx
      refine ⟨hi hxi, ?_⟩
      rcases hc with hc | ⟨hf, -⟩
      · rw [hc, hxs]
      · simp [hxi] at hf

end Registered

/-- A transaction leaves the registry alone and logs no creation, or lists one token for a coin
type that had none, and logs it. -/
theorem exec_lists (h : contracts.exec sender created call = .ok (contracts', logs)) :
    (contracts'.factory.tokenFor = contracts.factory.tokenFor ∧
      logs.filterMap Log.creation = []) ∨
    ∃ s a, contracts.factory.tokenFor s = .zero ∧ a ≠ .zero ∧
      contracts'.factory.tokenFor = Function.update contracts.factory.tokenFor s a ∧
      logs.filterMap Log.creation = [(a, s)] := by
  cases call with
  | initializeFactory relayer =>
    simp only [Contracts.exec, initializeFactory, bind_eq_ok, require_eq_ok, exists_const,
      pure_eq_ok, Prod.mk.injEq] at h
    obtain ⟨-, -, rfl, rfl⟩ := h
    exact .inl ⟨rfl, rfl⟩
  | createBridge name symbol coinType =>
    obtain ⟨-, -, hzero, hne, -, -, hr⟩ := createBridge_eq_ok.1 h
    cases hr
    exact .inr ⟨coinType, created, hzero, hne, rfl, rfl⟩
  | adoptBridge coinType token =>
    obtain ⟨_, -, -, hne, -, hzero, -, -, -, hr⟩ := adoptBridge_eq_ok.1 h
    cases hr
    exact .inr ⟨coinType, token, hzero, hne, rfl, rfl⟩
  | setFactoryRelayer next =>
    simp only [Contracts.exec, setFactoryRelayer, bind_eq_ok, require_eq_ok, exists_const,
      pure_eq_ok, Prod.mk.injEq] at h
    obtain ⟨-, -, rfl, rfl⟩ := h
    exact .inl ⟨rfl, rfl⟩
  | bridge token bridgeCall =>
    obtain ⟨_, _, events, -, -, hr⟩ := callBridge_eq_ok.1 h
    cases hr
    exact .inl ⟨rfl, Chain.creation_map_bridge⟩

end Contracts

namespace Chain

/-- The registry as a reader folds it from the creations in their order. -/
def foldCreations (creations : List (EvmAddress × Bytes)) : Bytes → EvmAddress :=
  creations.foldl (fun tokenFor creation => Function.update tokenFor creation.2 creation.1)
    fun _ => .zero

/-- What happens on the chain: a transaction of anybody; `Bridge` code comes to an address, with
blank storage or through its constructor; a block is closed. -/
inductive Action
  | transact (sender created : EvmAddress) (call : L2Call)
  | predeploy (a : EvmAddress)
  | deploy (a : EvmAddress) (name symbol coinType : Bytes) (relayer : EvmAddress)
  | closeBlock

/-- Where code may come to. -/
def Vacant (chain : Chain) (a : EvmAddress) : Prop :=
  a ≠ .zero ∧ (chain.contracts.bridges a).isNone

instance (chain : Chain) (a : EvmAddress) : Decidable (chain.Vacant a) :=
  inferInstanceAs (Decidable (_ ∧ _))

def act (chain : Chain) : Action → Option Chain
  | .transact sender created call => some (chain.execute sender created call).1
  | .predeploy a =>
    if chain.Vacant a then some (chain.extend (chain.contracts.setBridge a .blank) []) else none
  | .deploy a name symbol coinType relayer =>
    match Bridge.construct name symbol coinType relayer with
    | .ok (bridge, events) =>
      if chain.Vacant a then
        some (chain.extend (chain.contracts.setBridge a bridge) (events.map (.bridge a)))
      else none
    | .error _ => none
  | .closeBlock => some chain.closeBlock

/-- No log and no listing yet; the factory is initialized or not, and any bridges are blank. -/
structure Start (chain : Chain) : Prop where
  logs : chain.logs = []
  tokenFor : chain.contracts.factory.tokenFor = fun _ => .zero
  vacant : chain.contracts.bridges .zero = none
  blank : ∀ a b, chain.contracts.bridges a = some b → b = .blank

/-- The registry is injective, its tokens have the coin type they are listed for, and the
`BridgeCreated` events are its pairs, each once, and fold to it. -/
structure Canonical (chain : Chain) : Prop where
  injective : ∀ s s', chain.contracts.factory.tokenFor s ≠ .zero →
    chain.contracts.factory.tokenFor s = chain.contracts.factory.tokenFor s' → s = s'
  own : ∀ s, chain.contracts.factory.tokenFor s ≠ .zero →
    ∃ b, chain.contracts.bridges (chain.contracts.factory.tokenFor s) = some b ∧ b.coinType = s
  pairs : ∀ a s, (a, s) ∈ creationsIn chain.logs ↔
    chain.contracts.factory.tokenFor s = a ∧ a ≠ .zero
  once : (creationsIn chain.logs).Nodup
  folded : foldCreations (creationsIn chain.logs) = chain.contracts.factory.tokenFor

variable {chain chain' : Chain} {contracts : Contracts} {logs : List Log} {a : EvmAddress}
  {s : Bytes} {action : Action} {as : List Action}

/-- The events so far are the pairs of the registry. -/
structure Recorded (chain : Chain) : Prop where
  registered : chain.contracts.Registered
  pairs : ∀ {a s}, (a, s) ∈ creationsIn chain.logs ↔
    chain.contracts.factory.tokenFor s = a ∧ a ≠ .zero
  once : (creationsIn chain.logs).Nodup
  folded : foldCreations (creationsIn chain.logs) = chain.contracts.factory.tokenFor

theorem Recorded.canonical (h : Recorded chain) : Canonical chain where
  injective _ _ hs he := h.registered.injective hs he
  own s hs := by
    obtain ⟨b, hb, -, hcoin⟩ := h.registered.listed hs
    exact ⟨b, hb, hcoin⟩
  pairs _ _ := h.pairs
  once := h.once
  folded := h.folded

/-- What leaves the registry alone logs no creation. -/
theorem Recorded.quiet (h : Recorded chain) (hw : contracts.Registered)
    (hsame : contracts.factory.tokenFor = chain.contracts.factory.tokenFor)
    (hnone : logs.filterMap Log.creation = []) : Recorded (chain.extend contracts logs) := by
  have hcreations : creationsIn (chain.extend contracts logs).logs = creationsIn chain.logs := by
    rw [creationsIn_extend, hnone, List.append_nil]
  refine ⟨hw, fun {a s} => ?_, ?_, ?_⟩
  · rw [hcreations, h.pairs]
    exact iff_of_eq (by rw [← hsame]; rfl)
  · rw [hcreations]
    exact h.once
  · rw [hcreations, h.folded]
    exact hsame.symm

/-- A token listed and logged for a coin type that had none. -/
theorem Recorded.list (h : Recorded chain) (hw : contracts.Registered)
    (hzero : chain.contracts.factory.tokenFor s = .zero) (ha : a ≠ .zero)
    (hlist : contracts.factory.tokenFor = Function.update chain.contracts.factory.tokenFor s a)
    (hone : logs.filterMap Log.creation = [(a, s)]) :
    Recorded (chain.extend contracts logs) := by
  have hcreations : creationsIn (chain.extend contracts logs).logs =
      creationsIn chain.logs ++ [(a, s)] := by
    rw [creationsIn_extend, hone]
  have htokenFor : (chain.extend contracts logs).contracts.factory.tokenFor =
      Function.update chain.contracts.factory.tokenFor s a := hlist
  have hnew : ∀ a', (a', s) ∉ creationsIn chain.logs := by
    intro a' hmem
    obtain ⟨hs, hne⟩ := h.pairs.1 hmem
    exact hne (hs.symm.trans hzero)
  refine ⟨hw, fun {a' s'} => ?_, ?_, ?_⟩
  · rw [hcreations, htokenFor, List.mem_append, List.mem_singleton, Prod.mk.injEq]
    by_cases hs : s' = s
    · subst hs
      rw [Function.update_self, or_iff_right (hnew a')]
      constructor
      · intro heq
        exact ⟨heq.1.symm, heq.1 ▸ ha⟩
      · intro heq
        exact ⟨heq.1.symm, rfl⟩
    · rw [Function.update_of_ne hs, or_iff_left fun heq => hs heq.2]
      exact h.pairs
  · rw [hcreations]
    exact List.Nodup.append h.once (List.nodup_singleton _) (by simpa using hnew a)
  · rw [hcreations, htokenFor, foldCreations, List.foldl_append, ← h.folded]
    rfl

/-- Code that comes to an address. -/
theorem Recorded.place (h : Recorded chain) (hvacant : chain.Vacant a) {bridge : Bridge}
    {events : List BridgeEvent} (hb : bridge.initialized = false → bridge.coinType = []) :
    Recorded (chain.extend (chain.contracts.setBridge a bridge) (events.map (.bridge a))) :=
  h.quiet (h.registered.place hvacant.1 (Option.isNone_iff_eq_none.1 hvacant.2) hb) rfl
    creation_map_bridge

/-- What one step does: a call succeeds, code comes to a vacant address, or the contracts and the
logs stay. -/
theorem act_cases (hact : chain.act action = some chain') :
    (∃ sender created call contracts logs,
      chain.contracts.exec sender created call = .ok (contracts, logs) ∧
        chain' = chain.extend contracts logs) ∨
    (∃ (a : EvmAddress) (bridge : Bridge) (events : List BridgeEvent), chain.Vacant a ∧
      (bridge.initialized = false → bridge.coinType = []) ∧
      chain' = chain.extend (chain.contracts.setBridge a bridge) (events.map (.bridge a))) ∨
    chain'.contracts = chain.contracts ∧ chain'.logs = chain.logs := by
  cases action with
  | transact sender created call =>
    cases hact
    obtain ⟨contracts, logs, hexec, he⟩ | he := execute_cases chain sender created call
    · exact .inl ⟨sender, created, call, contracts, logs, hexec, by rw [he]⟩
    · exact .inr (.inr ⟨by rw [he], by rw [he]⟩)
  | predeploy a =>
    simp only [Chain.act, Option.ite_none_right_eq_some, Option.some.injEq] at hact
    obtain ⟨hvacant, rfl⟩ := hact
    exact .inr (.inl ⟨a, .blank, [], hvacant, fun _ => rfl, rfl⟩)
  | deploy a name symbol coinType relayer =>
    simp only [Chain.act] at hact
    split at hact
    · rename_i bridge events hconstruct
      simp only [Option.ite_none_right_eq_some, Option.some.injEq] at hact
      obtain ⟨hvacant, rfl⟩ := hact
      simp only [Bridge.construct, Bridge.setup, bind_eq_ok, require_eq_ok, exists_const,
        pure_eq_ok, Prod.mk.injEq] at hconstruct
      obtain ⟨-, rfl, -⟩ := hconstruct
      refine .inr (.inl ⟨a, _, events, hvacant, fun hi => ?_, rfl⟩)
      cases hi
    · cases hact
  | closeBlock =>
    cases hact
    exact .inr (.inr ⟨rfl, rfl⟩)

theorem Recorded.act (h : Recorded chain) (hact : chain.act action = some chain') :
    Recorded chain' := by
  obtain ⟨sender, created, call, contracts, logs, hexec, rfl⟩ |
    ⟨a, bridge, events, hvacant, hb, rfl⟩ | ⟨hcontracts, hlogs⟩ := act_cases hact
  · have hw := h.registered.exec hexec
    obtain ⟨hsame, hnone⟩ | ⟨s, a, hzero, ha, hlist, hone⟩ := Contracts.exec_lists hexec
    · exact h.quiet hw hsame hnone
    · exact h.list hw hzero ha hlist hone
  · exact h.place hvacant hb
  · refine ⟨?_, fun {a s} => ?_, ?_, ?_⟩
    · rw [hcontracts]
      exact h.registered
    · rw [hlogs, hcontracts]
      exact h.pairs
    · rw [hlogs]
      exact h.once
    · rw [hlogs, hcontracts]
      exact h.folded

theorem Start.recorded (h : Start chain) : Recorded chain := by
  have hzero : ∀ s, chain.contracts.factory.tokenFor s = .zero := by
    intro s
    rw [h.tokenFor]
  have hnone : creationsIn chain.logs = [] := by
    rw [h.logs]
    rfl
  refine ⟨⟨h.vacant, fun hb _ => ?_, fun hs => absurd (hzero _) hs⟩, fun {a s} => ?_, ?_, ?_⟩
  · rw [h.blank _ _ hb]
    rfl
  · rw [hnone, hzero]
    exact ⟨fun hmem => (List.not_mem_nil hmem).elim, fun hboth => absurd hboth.1.symm hboth.2⟩
  · rw [hnone]
    exact .nil
  · rw [hnone, h.tokenFor]
    rfl

/-- A listing is never rewritten. -/
theorem act_tokenFor (hact : chain.act action = some chain')
    (hs : chain.contracts.factory.tokenFor s ≠ .zero) :
    chain'.contracts.factory.tokenFor s = chain.contracts.factory.tokenFor s := by
  obtain ⟨sender, created, call, contracts, logs, hexec, rfl⟩ |
    ⟨a, bridge, events, -, -, rfl⟩ | ⟨hcontracts, -⟩ := act_cases hact
  · exact Contracts.exec_tokenFor hexec hs
  · rfl
  · rw [hcontracts]

theorem run_tokenFor (hrun : Run (enabled act) chain as chain')
    (hs : chain.contracts.factory.tokenFor s ≠ .zero) :
    chain'.contracts.factory.tokenFor s = chain.contracts.factory.tokenFor s := by
  induction hrun with
  | nil => rfl
  | cons hact _ ih =>
    have hstep := act_tokenFor hact hs
    rw [ih (by rwa [hstep]), hstep]

/-- In every state that is reached the registry is canonical, and in every later one a coin type
that has a token has the same token, which still has that coin type. -/
theorem reachable_canonical (h : Reachable Start (enabled act) chain) :
    Canonical chain ∧ ∀ as chain', Run (enabled act) chain as chain' →
      ∀ s, chain.contracts.factory.tokenFor s ≠ .zero →
        chain'.contracts.factory.tokenFor s = chain.contracts.factory.tokenFor s ∧
        ∃ b, chain'.contracts.bridges (chain.contracts.factory.tokenFor s) = some b ∧
          b.coinType = s := by
  have hrecorded : ∀ {chain}, Reachable Start (enabled act) chain → Recorded chain := fun h =>
    h.inv (fun _ hs => hs.recorded) fun _ _ _ hr hact => hr.act hact
  refine ⟨(hrecorded h).canonical, fun as chain' hrun s hs => ?_⟩
  have hsame := run_tokenFor hrun hs
  obtain ⟨b, hb, hcoin⟩ := (hrecorded (h.extend hrun)).canonical.own s (by rwa [hsame])
  rw [hsame] at hb
  exact ⟨hsame, b, hb, hcoin⟩

def empty : Chain where
  head := 0
  contracts := ⟨⟨.zero, false, fun _ => .zero⟩, fun _ => none⟩
  logs := []

/-- A token is created, another predeployed, initialized by a stranger and adopted, between two
moves of the relayer. -/
def twoTokens : List Action :=
  [.transact (.repeated 9) .zero (.initializeFactory (.repeated 1)),
    .transact (.repeated 9) (.repeated 7) (.createBridge [] [] [115]),
    .predeploy (.repeated 8),
    .transact (.repeated 1) .zero (.setFactoryRelayer (.repeated 2)),
    .transact (.repeated 9) .zero
      (.bridge (.repeated 8) (.initializeBridge [] [] [116] (.repeated 2))),
    .transact (.repeated 2) .zero (.adoptBridge [116] (.repeated 8)),
    .transact (.repeated 2) .zero (.setFactoryRelayer (.repeated 3))]

theorem reachable_canonical_twoTokens : ∃ chain, Run (enabled act) empty twoTokens chain ∧
    Canonical chain ∧
    creationsIn chain.logs = [(.repeated 7, [115]), (.repeated 8, [116])] := by
  have hrun : Run (enabled act) empty twoTokens _ := run_of_execAll rfl
  have hstart : Start empty := ⟨rfl, rfl, rfl, fun _ _ h => by cases h⟩
  exact ⟨_, hrun, (reachable_canonical ⟨empty, _, hstart, hrun⟩).1, by rfl⟩

end Chain

end Podseq.Solidity
