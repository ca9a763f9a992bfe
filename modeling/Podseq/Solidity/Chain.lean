import Podseq.Lib.SortedFilter
import Podseq.Solidity.BridgeFactory

/-! # The L2 chain, as its logs show it

Blocks run transactions in order; the logs carry the number of their block. What a reader of
the logs relies on is collected in `Chain.Sound`: the `BridgeCreated` logs are the factory's
registry, and the logs of each bridge account for its storage.
-/
namespace Podseq.Solidity
open Podseq.Lib

/-- What `eth_getTransactionReceipt` returns. -/
structure Receipt where
  success : Bool
  logs : List Log

structure Chain where
  /-- The number of the latest block. -/
  head : Nat
  contracts : Contracts
  /-- All logs in order, each with its block. -/
  logs : List (Nat × Log)

def Log.creation : Log → Option (EvmAddress × Bytes)
  | .factory (.bridgeCreated token coinType _ _) => some (token, coinType)
  | _ => none

/-- The event, when `token` emitted the log. -/
def Log.eventOf (token : EvmAddress) : Log → Option BridgeEvent
  | .bridge emitter event => if emitter = token then some event else none
  | _ => none

namespace Receipt

/-- The token of the first `BridgeCreated` log. -/
def createdToken (receipt : Receipt) : Option EvmAddress :=
  (receipt.logs.findSome? Log.creation).map Prod.fst

end Receipt

namespace Chain

/-- Runs a transaction in the block after `head`. -/
def execute (chain : Chain) (sender created : EvmAddress) (call : L2Call) : Chain × Receipt :=
  match chain.contracts.exec sender created call with
  | .ok (contracts, logs) =>
    ({ chain with contracts, logs := chain.logs ++ logs.map fun log => (chain.head + 1, log) },
      ⟨true, logs⟩)
  | .error _ => (chain, ⟨false, []⟩)

def closeBlock (chain : Chain) : Chain := { chain with head := chain.head + 1 }

/-- `eth_getLogs` over the blocks `lo..=hi`. -/
def logsIn (chain : Chain) (lo hi : Nat) : List (Nat × Log) :=
  chain.logs.filter fun log => lo ≤ log.1 ∧ log.1 ≤ hi

def creationsIn (logs : List (Nat × Log)) : List (EvmAddress × Bytes) :=
  logs.filterMap fun log => log.2.creation

def eventsOf (chain : Chain) (token : EvmAddress) : List BridgeEvent :=
  chain.logs.filterMap fun log => log.2.eventOf token

def Listed (chain : Chain) (token : EvmAddress) : Prop :=
  token ≠ .zero ∧ ∃ s, chain.contracts.factory.tokenFor s = token

/-- What the logs tell about the contracts. -/
structure Sound (R : EvmAddress) (chain : Chain) : Prop where
  wellFormed : chain.contracts.WellFormed R
  created : ∀ {a s}, (a, s) ∈ creationsIn chain.logs ↔
    chain.contracts.factory.tokenFor s = a ∧ a ≠ .zero
  accounts : ∀ {a b}, chain.contracts.bridges a = some b → b.Accounts (chain.eventsOf a)
  silent : ∀ {a}, chain.contracts.bridges a = none → chain.eventsOf a = []
  sorted : chain.logs.Pairwise fun x y => x.1 ≤ y.1
  bounded : ∀ log ∈ chain.logs, log.1 ≤ chain.head + 1

variable {chain : Chain} {R sender created token a : EvmAddress} {call : L2Call}
  {contracts : Contracts} {logs : List Log}

theorem creationsIn_append {l l' : List (Nat × Log)} :
    creationsIn (l ++ l') = creationsIn l ++ creationsIn l' :=
  List.filterMap_append

/-- The chain after `logs` of the block under construction. -/
def extend (chain : Chain) (contracts : Contracts) (logs : List Log) : Chain :=
  { chain with contracts, logs := chain.logs ++ logs.map fun log => (chain.head + 1, log) }

theorem execute_cases (chain : Chain) (sender created : EvmAddress) (call : L2Call) :
    (∃ contracts logs, chain.contracts.exec sender created call = .ok (contracts, logs) ∧
      chain.execute sender created call = (chain.extend contracts logs, ⟨true, logs⟩)) ∨
    chain.execute sender created call = (chain, ⟨false, []⟩) := by
  unfold execute
  split
  · rename_i contracts logs h
    exact .inl ⟨contracts, logs, h, rfl⟩
  · exact .inr rfl

theorem eventsOf_extend : (chain.extend contracts logs).eventsOf a =
    chain.eventsOf a ++ logs.filterMap (Log.eventOf a) := by
  simp only [eventsOf, extend, List.filterMap_append, List.filterMap_map, Function.comp_def]

theorem creationsIn_extend : creationsIn (chain.extend contracts logs).logs =
    creationsIn chain.logs ++ logs.filterMap Log.creation := by
  simp only [creationsIn, extend, List.filterMap_append, List.filterMap_map, Function.comp_def]

theorem eventOf_map_bridge {events : List BridgeEvent} :
    (events.map (Log.bridge token)).filterMap (Log.eventOf a) =
      if token = a then events else [] := by
  rw [List.filterMap_map]
  split <;> simp_all [Function.comp_def, Log.eventOf]

theorem creation_map_bridge {events : List BridgeEvent} :
    (events.map (Log.bridge token)).filterMap Log.creation = [] := by
  simp [List.filterMap_map, Function.comp_def, Log.creation]

/-! ## Soundness along transactions -/

/-- The listings a transaction adds are those it logs. -/
theorem exec_created (hw : chain.contracts.WellFormed R)
    (h : chain.contracts.exec sender created call = .ok (contracts, logs)) {s : Bytes} :
    (contracts.factory.tokenFor s = a ∧ a ≠ .zero) ↔
      (chain.contracts.factory.tokenFor s = a ∧ a ≠ .zero) ∨
        (a, s) ∈ logs.filterMap Log.creation := by
  have hlist : ∀ {coinType : Bytes} {token : EvmAddress}, token ≠ .zero →
      chain.contracts.factory.tokenFor coinType = .zero →
      ((chain.contracts.setToken coinType token).factory.tokenFor s = a ∧ a ≠ .zero ↔
        (chain.contracts.factory.tokenFor s = a ∧ a ≠ .zero) ∨
          token = a ∧ coinType = s) := by
    intro coinType token hne hzero
    by_cases hs : s = coinType
    · rw [hs, Contracts.setToken_self, hzero]
      grind
    · rw [Contracts.setToken_of_ne hs]
      simp [Ne.symm hs]
  cases call with
  | initializeFactory relayer =>
    simp [Contracts.exec, Contracts.initializeFactory, hw.ready] at h
  | createBridge name symbol coinType =>
    obtain ⟨-, -, hzero, hne, -, -, hr⟩ := Contracts.createBridge_eq_ok.1 h
    cases hr
    simpa [Log.creation, eq_comm] using hlist hne hzero
  | adoptBridge coinType token =>
    obtain ⟨_, -, -, hne, -, hzero, -, -, -, hr⟩ := Contracts.adoptBridge_eq_ok.1 h
    cases hr
    simpa [Log.creation, eq_comm] using hlist hne hzero
  | setFactoryRelayer next =>
    simp only [Contracts.exec, Contracts.setFactoryRelayer, bind_eq_ok, require_eq_ok,
      exists_const, pure_eq_ok, Prod.mk.injEq] at h
    obtain ⟨-, -, rfl, rfl⟩ := h
    simp [Log.creation]
  | bridge token bridgeCall =>
    obtain ⟨_, _, events, -, -, hr⟩ := Contracts.callBridge_eq_ok.1 h
    cases hr
    rw [creation_map_bridge]
    simp

/-- Where a transaction writes one bridge and emits only that bridge's events, the events account
for the storage it leaves if they do for that bridge. -/
theorem Sound.accounts_setBridge (hc : Sound R chain) {token : EvmAddress} {bridge : Bridge}
    {events : List BridgeEvent}
    (hevents : ∀ a, logs.filterMap (Log.eventOf a) = if token = a then events else [])
    (hself : contracts.bridges token = some bridge)
    (hother : ∀ a, a ≠ token → contracts.bridges a = chain.contracts.bridges a)
    (haccounts : bridge.Accounts (chain.eventsOf token ++ events)) :
    (∀ {a b}, contracts.bridges a = some b →
      b.Accounts (chain.eventsOf a ++ logs.filterMap (Log.eventOf a))) ∧
    ∀ {a}, contracts.bridges a = none →
      chain.eventsOf a ++ logs.filterMap (Log.eventOf a) = [] := by
  refine ⟨fun {a b} hb => ?_, fun {a} hb => ?_⟩ <;> rw [hevents] <;> by_cases ha : a = token
  · subst ha
    cases hself.symm.trans hb
    rw [if_pos rfl]
    exact haccounts
  · rw [hother a ha] at hb
    rw [if_neg (Ne.symm ha), List.append_nil]
    exact hc.accounts hb
  · subst ha
    rw [hself] at hb
    cases hb
  · rw [hother a ha] at hb
    rw [if_neg (Ne.symm ha), List.append_nil]
    exact hc.silent hb

/-- The events of a transaction account for the storage it leaves. -/
theorem exec_accounts (hc : Sound R chain)
    (h : chain.contracts.exec sender created call = .ok (contracts, logs)) :
    (∀ {a b}, contracts.bridges a = some b →
      b.Accounts (chain.eventsOf a ++ logs.filterMap (Log.eventOf a))) ∧
    ∀ {a}, contracts.bridges a = none →
      chain.eventsOf a ++ logs.filterMap (Log.eventOf a) = [] := by
  have hkeep : ∀ {logs : List Log}, (∀ a, logs.filterMap (Log.eventOf a) = []) →
      (∀ {a b}, chain.contracts.bridges a = some b →
        b.Accounts (chain.eventsOf a ++ logs.filterMap (Log.eventOf a))) ∧
      ∀ {a}, chain.contracts.bridges a = none →
        chain.eventsOf a ++ logs.filterMap (Log.eventOf a) = [] := by
    intro logs hnone
    exact ⟨fun hb => by rw [hnone, List.append_nil]; exact hc.accounts hb,
      fun hb => by rw [hnone, List.append_nil]; exact hc.silent hb⟩
  cases call with
  | initializeFactory relayer =>
    simp [Contracts.exec, Contracts.initializeFactory, hc.wellFormed.ready] at h
  | createBridge name symbol coinType =>
    obtain ⟨-, -, -, -, hvacant, -, hr⟩ := Contracts.createBridge_eq_ok.1 h
    cases hr
    have hevents : ∀ a, ([.bridge created (.relayerChanged .zero chain.contracts.factory.relayer),
        .factory (.bridgeCreated created coinType name symbol)] : List Log).filterMap
          (Log.eventOf a) =
        if created = a then [.relayerChanged .zero chain.contracts.factory.relayer] else [] := by
      intro a
      by_cases ha : created = a <;> simp [Log.eventOf, ha]
    refine hc.accounts_setBridge hevents Contracts.setBridge_self
      (fun a ha => Contracts.setBridge_of_ne ha) ?_
    rw [hc.silent hvacant]
    refine ⟨rfl, ?_, .nil, ?_, ?_, ?_, rfl, ?_, fun _ => rfl⟩ <;>
      simp [Bridge.blank, Bridge.mintsIn, Bridge.burnsIn]
  | adoptBridge coinType token =>
    obtain ⟨_, -, -, -, -, -, -, -, -, hr⟩ := Contracts.adoptBridge_eq_ok.1 h
    cases hr
    exact hkeep fun _ => rfl
  | setFactoryRelayer next =>
    simp only [Contracts.exec, Contracts.setFactoryRelayer, bind_eq_ok, require_eq_ok,
      exists_const, pure_eq_ok, Prod.mk.injEq] at h
    obtain ⟨-, -, rfl, rfl⟩ := h
    exact hkeep fun _ => rfl
  | bridge token bridgeCall =>
    obtain ⟨b₀, b', events, hb₀, hcall, hr⟩ := Contracts.callBridge_eq_ok.1 h
    cases hr
    refine hc.accounts_setBridge (fun _ => eventOf_map_bridge) Contracts.setBridge_self
      (fun a ha => Contracts.setBridge_of_ne ha) ?_
    exact Bridge.call_accounts (hc.wellFormed.sound hb₀) (hc.accounts hb₀) hcall

theorem Sound.extend (hc : Sound R chain) (hk : Contracts.WellFormed.Keeps R sender call)
    (h : chain.contracts.exec sender created call = .ok (contracts, logs)) :
    Sound R (chain.extend contracts logs) := by
  obtain ⟨haccounts, hsilent⟩ := exec_accounts hc h
  refine ⟨hc.wellFormed.exec hk h, fun {a s} => ?_, fun hb => ?_, fun hb => ?_, ?_, ?_⟩
  · rw [creationsIn_extend, List.mem_append, hc.created]
    exact (exec_created hc.wellFormed h).symm
  · rw [eventsOf_extend]
    exact haccounts hb
  · rw [eventsOf_extend]
    exact hsilent hb
  · refine List.pairwise_append.2 ⟨hc.sorted, ?_, fun x hx y hy => ?_⟩
    · exact List.pairwise_map.2 (List.pairwise_of_forall fun _ _ => Nat.le_refl _)
    · obtain ⟨_, -, rfl⟩ := List.mem_map.1 hy
      exact hc.bounded x hx
  · intro log hlog
    rcases List.mem_append.1 hlog with hlog | hlog
    · exact hc.bounded log hlog
    · obtain ⟨_, -, rfl⟩ := List.mem_map.1 hlog
      exact Nat.le_refl _

theorem Sound.execute (hc : Sound R chain) (hk : Contracts.WellFormed.Keeps R sender call) :
    Sound R (chain.execute sender created call).1 := by
  obtain ⟨contracts, logs, h, he⟩ | he := execute_cases chain sender created call
  · rw [he]
    exact hc.extend hk h
  · rw [he]
    exact hc

theorem Sound.closeBlock (hc : Sound R chain) : Sound R chain.closeBlock :=
  ⟨hc.wellFormed, hc.created, hc.accounts, hc.silent, hc.sorted,
    fun log hlog => Nat.le_succ_of_le (hc.bounded log hlog)⟩

/-! ## What later states of the chain keep -/

/-- `chain'` is a later state of `chain`: the logs up to `head` stand, a listing is not
rewritten, and a token that was not listed had burnt nothing. -/
structure Later (chain chain' : Chain) : Prop where
  head : chain.head ≤ chain'.head
  logs : ∃ new, chain'.logs = chain.logs ++ new ∧ ∀ log ∈ new, chain.head < log.1
  tokenFor : ∀ {s}, chain.contracts.factory.tokenFor s ≠ .zero →
    chain'.contracts.factory.tokenFor s = chain.contracts.factory.tokenFor s
  unlisted : ∀ {a}, chain'.Listed a → chain.Listed a ∨ Bridge.burnsIn (chain.eventsOf a) = []

namespace Later

variable {chain' chain'' : Chain}

theorem refl (chain : Chain) : Later chain chain :=
  ⟨Nat.le_refl _, ⟨[], by simp⟩, fun _ => rfl, .inl⟩

theorem eventsOf (h : Later chain chain') (a : EvmAddress) :
    ∃ new, chain'.eventsOf a = chain.eventsOf a ++ new := by
  obtain ⟨new, hnew, -⟩ := h.logs
  exact ⟨_, by rw [Chain.eventsOf, hnew, List.filterMap_append]; rfl⟩

theorem trans (h : Later chain chain') (h' : Later chain' chain'') : Later chain chain'' := by
  refine ⟨h.head.trans h'.head, ?_, fun {s} hs => ?_, fun {a} ha => ?_⟩
  · obtain ⟨new, hnew, hblock⟩ := h.logs
    obtain ⟨new', hnew', hblock'⟩ := h'.logs
    refine ⟨new ++ new', by rw [hnew', hnew, List.append_assoc], fun log hlog => ?_⟩
    rcases List.mem_append.1 hlog with hlog | hlog
    · exact hblock log hlog
    · exact Nat.lt_of_le_of_lt h.head (hblock' log hlog)
  · rw [h'.tokenFor (by rwa [h.tokenFor hs]), h.tokenFor hs]
  · rcases h'.unlisted ha with ha | ha
    · exact h.unlisted ha
    · obtain ⟨new, hnew⟩ := h.eventsOf a
      rw [hnew, Bridge.burnsIn, List.filterMap_append, List.append_eq_nil_iff] at ha
      exact .inr ha.1

/-- The logs below a block that is not past the head's successor stand. -/
theorem filter_lt (h : Later chain chain') {k : Nat} (hk : k ≤ chain.head + 1) :
    chain'.logs.filter (fun log => log.1 < k) = chain.logs.filter fun log => log.1 < k := by
  obtain ⟨new, hnew, hblock⟩ := h.logs
  have hnone : (new.filter fun log => log.1 < k) = [] := by
    rw [List.filter_eq_nil_iff]
    intro log hlog
    have := hblock log hlog
    simp only [decide_eq_true_eq]
    omega
  rw [hnew, List.filter_append, hnone, List.append_nil]

theorem mints (h : Later chain chain') {a : EvmAddress} {p : Nat × Nat}
    (hp : p ∈ Bridge.mintsIn (chain.eventsOf a)) : p ∈ Bridge.mintsIn (chain'.eventsOf a) := by
  obtain ⟨new, hnew⟩ := h.eventsOf a
  rw [hnew, Bridge.mintsIn, List.filterMap_append]
  exact List.mem_append_left _ hp

theorem listed (h : Later chain chain') {a : EvmAddress} (ha : chain.Listed a) :
    chain'.Listed a := by
  obtain ⟨hne, s, hs⟩ := ha
  exact ⟨hne, s, (h.tokenFor (hs.trans_ne hne)).trans hs⟩

theorem mem (h : Later chain chain') {log : Nat × Log} (hlog : log ∈ chain.logs) :
    log ∈ chain'.logs := by
  obtain ⟨new, hnew, -⟩ := h.logs
  exact hnew ▸ List.mem_append_left new hlog

end Later

theorem closeBlock_later : Later chain chain.closeBlock :=
  ⟨Nat.le_succ _, ⟨[], (List.append_nil _).symm, fun _ h => (List.not_mem_nil h).elim⟩,
    fun _ => rfl, .inl⟩

/-- A transaction that is unprivileged, or a call of a bridge that does not move the relayer
role. -/
def Ordinary (R : EvmAddress) (contracts : Contracts) (sender : EvmAddress) (call : L2Call) :
    Prop :=
  contracts.Unprivileged R sender call ∨
    (∃ token bridgeCall, call = .bridge token bridgeCall) ∧
      Contracts.WellFormed.Keeps R sender call

theorem Ordinary.keeps {contracts : Contracts} (h : Ordinary R contracts sender call) :
    Contracts.WellFormed.Keeps R sender call :=
  h.elim Contracts.Unprivileged.keeps fun h => h.2

theorem extend_later (hc : Sound R chain) (ho : Ordinary R chain.contracts sender call)
    (h : chain.contracts.exec sender created call = .ok (contracts, logs)) :
    Later chain (chain.extend contracts logs) := by
  have hs' := hc.extend ho.keeps h
  refine ⟨Nat.le_refl _, ⟨_, rfl, fun log hlog => ?_⟩, fun hs => Contracts.exec_tokenFor h hs,
    fun {a} ha => ?_⟩
  · obtain ⟨_, -, rfl⟩ := List.mem_map.1 hlog
    exact Nat.lt_succ_self _
  · obtain ⟨hne, s, hs⟩ := ha
    change contracts.factory.tokenFor s = a at hs
    by_cases hold : chain.contracts.factory.tokenFor s = .zero
    · rcases ho with hp | ⟨⟨token, bridgeCall, rfl⟩, -⟩
      · obtain ⟨b', hb', hcase⟩ := Contracts.exec_listed hc.wellFormed hp h (hs.trans_ne hne)
        rcases hcase with ⟨hsame, -⟩ | ⟨-, hfresh⟩
        · exact .inl ⟨hne, s, hsame.trans hs⟩
        · rw [hs] at hb'
          have hnone := (hs'.accounts hb').unburned hfresh
          rw [eventsOf_extend, Bridge.burnsIn, List.filterMap_append,
            List.append_eq_nil_iff] at hnone
          exact .inr hnone.1
      · obtain ⟨_, _, _, -, -, hr⟩ := Contracts.callBridge_eq_ok.1 h
        cases hr
        exact .inl ⟨hne, s, hs⟩
    · exact .inl ⟨hne, s, (Contracts.exec_tokenFor h hold).symm.trans hs⟩

theorem execute_later (hc : Sound R chain) (ho : Ordinary R chain.contracts sender call) :
    Later chain (chain.execute sender created call).1 := by
  obtain ⟨contracts, logs, h, he⟩ | he := execute_cases chain sender created call
  · rw [he]
    exact extend_later hc ho h
  · rw [he]
    exact .refl chain

/-- A transaction that mints nothing on a listed token logs no mint of one. -/
theorem execute_mints (hc : Sound R chain)
    (hp : chain.contracts.Unprivileged R sender call)
    (hl : (chain.execute sender created call).1.Listed a) :
    Bridge.mintsIn ((chain.execute sender created call).1.eventsOf a) = [] ∨
      chain.Listed a ∧ Bridge.mintsIn ((chain.execute sender created call).1.eventsOf a) =
        Bridge.mintsIn (chain.eventsOf a) := by
  obtain ⟨contracts, logs, h, he⟩ | he := execute_cases chain sender created call
  · have hs' := hc.extend (Contracts.Unprivileged.keeps hp) h
    rw [he] at hl ⊢
    obtain ⟨hne, s, hs⟩ := hl
    change contracts.factory.tokenFor s = a at hs
    obtain ⟨b', hb', hcase⟩ := Contracts.exec_listed hc.wellFormed hp h (hs.trans_ne hne)
    rw [hs] at hb' hcase
    have haccounts := hs'.accounts hb'
    rcases hcase with ⟨hsame, b, hb, hkeeps⟩ | ⟨-, hfresh⟩
    · rw [hsame] at hb
      rw [eventsOf_extend] at haccounts ⊢
      exact .inr ⟨⟨hne, s, hsame⟩, (hc.accounts hb).keepsMints haccounts hkeeps⟩
    · exact .inl (haccounts.unminted hfresh)
  · rw [he] at hl ⊢
    exact .inr ⟨hl, rfl⟩

/-- A call of a bridge lists nothing. -/
theorem execute_bridge_listed {bridgeCall : BridgeCall} :
    (chain.execute sender created (.bridge token bridgeCall)).1.Listed a ↔ chain.Listed a := by
  obtain ⟨contracts, logs, he, hx⟩ | hx := execute_cases chain sender created
    (.bridge token bridgeCall)
  · obtain ⟨_, _, _, -, -, hr⟩ := Contracts.callBridge_eq_ok.1 he
    cases hr
    rw [hx]
    rfl
  · rw [hx]

/-- A call of `mint` logs at most its own mint. -/
theorem execute_mint {recipient : EvmAddress} {amount nonce : Nat} {p : Nat × Nat}
    (h : p ∈ Bridge.mintsIn ((chain.execute sender created
      (.bridge token (.mint recipient amount nonce))).1.eventsOf a)) :
    p ∈ Bridge.mintsIn (chain.eventsOf a) ∨ a = token ∧ p = (nonce, amount) ∧
      (chain.execute sender created (.bridge token (.mint recipient amount nonce))).2.success := by
  obtain ⟨contracts, logs, he, hx⟩ | hx := execute_cases chain sender created
    (.bridge token (.mint recipient amount nonce))
  · rw [hx] at h ⊢
    obtain ⟨b, b', events, -, hcall, hr⟩ := Contracts.callBridge_eq_ok.1 he
    obtain ⟨-, -, -, -, -, hb'⟩ := Bridge.mint_eq_ok.1 hcall
    cases hr
    cases hb'
    rw [eventsOf_extend, eventOf_map_bridge, Bridge.mintsIn, List.filterMap_append] at h
    rcases List.mem_append.1 h with h | h
    · exact .inl h
    · split at h
      · rename_i ha
        exact .inr ⟨ha.symm, List.mem_singleton.1 h, rfl⟩
      · cases h
  · rw [hx] at h
    exact .inl h

def genesis (R predeploy : EvmAddress) : Chain where
  head := 0
  contracts := Contracts.genesis R predeploy
  logs := []

theorem genesis_sound (hR : R ≠ .zero) (predeploy : EvmAddress) :
    Sound R (genesis R predeploy) := by
  have hnone : ∀ {s}, (genesis R predeploy).contracts.factory.tokenFor s = .zero := rfl
  refine ⟨Contracts.genesis_wellFormed hR predeploy, fun {a s} => ?_, fun {a b} hb => ?_,
    fun _ => rfl, .nil, fun _ h => (List.not_mem_nil h).elim⟩
  · rw [hnone]
    exact ⟨fun h => (List.not_mem_nil h).elim, fun ⟨h, hne⟩ => absurd h.symm hne⟩
  · simp only [genesis, Contracts.genesis, Option.ite_none_right_eq_some] at hb
    obtain ⟨-, hb⟩ := hb
    cases hb
    exact Bridge.blank_accounts

end Chain

end Podseq.Solidity
