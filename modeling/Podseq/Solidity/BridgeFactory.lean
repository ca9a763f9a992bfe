import Podseq.Solidity.Bridge

/-! # `BridgeFactory.sol`: the registry of bridged tokens

The factory and the `Bridge` contracts it deploys or adopts. A transaction runs to its end or
reverts as a whole. The address of a new contract is the environment's to assign: a creation
fails at `address(0)` and where code already stands.
-/
namespace Podseq.Solidity
open Podseq.Lib

inductive FactoryEvent
  | bridgeCreated (token : EvmAddress) (coinType name symbol : Bytes)
  | relayerChanged (previous next : EvmAddress)
deriving DecidableEq, Repr

/-- A log with its emitter. -/
inductive Log
  | factory (event : FactoryEvent)
  | bridge (token : EvmAddress) (event : BridgeEvent)
deriving DecidableEq, Repr

structure BridgeFactory where
  relayer : EvmAddress
  initialized : Bool
  tokenFor : Bytes → EvmAddress

/-- The contracts of the bridge. -/
structure Contracts where
  factory : BridgeFactory
  bridges : EvmAddress → Option Bridge

/-- The transactions of the bridge: calls of the factory and of the `Bridge` at an address. -/
inductive L2Call
  | initializeFactory (relayer : EvmAddress)
  | createBridge (name symbol coinType : Bytes)
  | adoptBridge (coinType : Bytes) (token : EvmAddress)
  | setFactoryRelayer (next : EvmAddress)
  | bridge (token : EvmAddress) (call : BridgeCall)

namespace Contracts

def setBridge (contracts : Contracts) (token : EvmAddress) (bridge : Bridge) : Contracts :=
  { contracts with bridges := Function.update contracts.bridges token (some bridge) }

def setToken (contracts : Contracts) (coinType : Bytes) (token : EvmAddress) : Contracts :=
  let tokenFor := Function.update contracts.factory.tokenFor coinType token
  { contracts with factory := { contracts.factory with tokenFor } }

/-- `initialize`, the one-time configuration. -/
def initializeFactory (contracts : Contracts) (relayer : EvmAddress) :
    Evm (Contracts × List Log) := do
  require (contracts.factory.initialized = false) (.reason "BridgeFactory: already initialized")
  require (relayer ≠ .zero) (.reason "BridgeFactory: zero relayer")
  return ({ contracts with factory := { contracts.factory with initialized := true, relayer } },
    [.factory (.relayerChanged .zero relayer)])

def createBridge (contracts : Contracts) (created : EvmAddress) (name symbol coinType : Bytes) :
    Evm (Contracts × List Log) := do
  require contracts.factory.initialized (.reason "BridgeFactory: not initialized")
  require (0 < coinType.length) (.reason "BridgeFactory: empty coin type")
  require (contracts.factory.tokenFor coinType = .zero)
    (.reason "BridgeFactory: coin type already has a token")
  require (created ≠ .zero ∧ (contracts.bridges created).isNone) .badAddress
  let (bridge, events) ← Bridge.construct name symbol coinType contracts.factory.relayer
  return ((contracts.setToken coinType created).setBridge created bridge,
    events.map (.bridge created) ++ [.factory (.bridgeCreated created coinType name symbol)])

/-- A call into a `Bridge`: there has to be one at the address. -/
def bridgeAt (contracts : Contracts) (token : EvmAddress) : Evm Bridge :=
  match contracts.bridges token with
  | some bridge => .ok bridge
  | none => .error .badAddress

/-- `adoptBridge`. The source compares the two coin type strings by their hashes. -/
def adoptBridge (contracts : Contracts) (sender : EvmAddress) (coinType : Bytes)
    (token : EvmAddress) : Evm (Contracts × List Log) := do
  require (sender = contracts.factory.relayer) (.reason "BridgeFactory: not relayer")
  require contracts.factory.initialized (.reason "BridgeFactory: not initialized")
  require (token ≠ .zero) (.reason "BridgeFactory: zero token")
  require (0 < coinType.length) (.reason "BridgeFactory: empty coin type")
  require (contracts.factory.tokenFor coinType = .zero)
    (.reason "BridgeFactory: coin type already has a token")
  let bridge ← contracts.bridgeAt token
  require (bridge.coinType = coinType) (.reason "BridgeFactory: token coin type mismatch")
  require (bridge.relayer = contracts.factory.relayer)
    (.reason "BridgeFactory: token relayer mismatch")
  return (contracts.setToken coinType token,
    [.factory (.bridgeCreated token coinType bridge.name bridge.symbol)])

def setFactoryRelayer (contracts : Contracts) (sender next : EvmAddress) :
    Evm (Contracts × List Log) := do
  require (sender = contracts.factory.relayer) (.reason "BridgeFactory: not relayer")
  require (next ≠ .zero) (.reason "BridgeFactory: zero relayer")
  return ({ contracts with factory := { contracts.factory with relayer := next } },
    [.factory (.relayerChanged contracts.factory.relayer next)])

def callBridge (contracts : Contracts) (sender token : EvmAddress) (call : BridgeCall) :
    Evm (Contracts × List Log) := do
  let bridge ← contracts.bridgeAt token
  let (bridge', events) ← bridge.call sender call
  return (contracts.setBridge token bridge', events.map (.bridge token))

/-- Runs one transaction of `sender`. -/
def exec (contracts : Contracts) (sender created : EvmAddress) :
    L2Call → Evm (Contracts × List Log)
  | .initializeFactory relayer => initializeFactory contracts relayer
  | .createBridge name symbol coinType => createBridge contracts created name symbol coinType
  | .adoptBridge coinType token => adoptBridge contracts sender coinType token
  | .setFactoryRelayer next => setFactoryRelayer contracts sender next
  | .bridge token call => callBridge contracts sender token call

/-! ## What the transactions do -/

variable {contracts contracts' : Contracts} {sender created token a R : EvmAddress}
  {name symbol coinType s : Bytes} {bridge : Bridge} {logs : List Log} {call : L2Call}

@[simp] theorem setBridge_factory : (contracts.setBridge token bridge).factory =
    contracts.factory := rfl

@[simp] theorem setBridge_self : (contracts.setBridge token bridge).bridges token = some bridge :=
  Function.update_self ..

theorem setBridge_of_ne (h : a ≠ token) :
    (contracts.setBridge token bridge).bridges a = contracts.bridges a :=
  Function.update_of_ne h ..

@[simp] theorem setToken_bridges : (contracts.setToken coinType token).bridges =
    contracts.bridges := rfl

@[simp] theorem setToken_relayer : (contracts.setToken coinType token).factory.relayer =
    contracts.factory.relayer := rfl

@[simp] theorem setToken_initialized :
    (contracts.setToken coinType token).factory.initialized = contracts.factory.initialized :=
  rfl

@[simp] theorem setToken_self :
    (contracts.setToken coinType token).factory.tokenFor coinType = token :=
  Function.update_self ..

theorem setToken_of_ne (h : s ≠ coinType) :
    (contracts.setToken coinType token).factory.tokenFor s = contracts.factory.tokenFor s :=
  Function.update_of_ne h ..

@[simp] theorem bridgeAt_eq_ok :
    contracts.bridgeAt token = .ok bridge ↔ contracts.bridges token = some bridge := by
  unfold bridgeAt; split <;> simp_all

theorem createBridge_eq_ok {r : Contracts × List Log} :
    contracts.createBridge created name symbol coinType = .ok r ↔
      contracts.factory.initialized ∧ 0 < coinType.length ∧
      contracts.factory.tokenFor coinType = .zero ∧ created ≠ .zero ∧
      contracts.bridges created = none ∧ contracts.factory.relayer ≠ .zero ∧
      r = ((contracts.setToken coinType created).setBridge created { Bridge.blank with
          initialized := true, name, symbol, coinType, relayer := contracts.factory.relayer },
        [.bridge created (.relayerChanged .zero contracts.factory.relayer),
          .factory (.bridgeCreated created coinType name symbol)]) := by
  simp only [createBridge, Bridge.construct, Bridge.setup, bind_eq_ok, require_eq_ok,
    exists_const, pure_eq_ok, Option.isNone_iff_eq_none]
  grind

theorem adoptBridge_eq_ok {r : Contracts × List Log} :
    contracts.adoptBridge sender coinType token = .ok r ↔
      ∃ bridge, sender = contracts.factory.relayer ∧ contracts.factory.initialized ∧
      token ≠ .zero ∧ 0 < coinType.length ∧ contracts.factory.tokenFor coinType = .zero ∧
      contracts.bridges token = some bridge ∧ bridge.coinType = coinType ∧
      bridge.relayer = contracts.factory.relayer ∧
      r = (contracts.setToken coinType token,
        [.factory (.bridgeCreated token coinType bridge.name bridge.symbol)]) := by
  simp only [adoptBridge, bind_eq_ok, require_eq_ok, exists_const, bridgeAt_eq_ok, pure_eq_ok]
  grind

theorem callBridge_eq_ok {bridgeCall : BridgeCall} {r : Contracts × List Log} :
    contracts.callBridge sender token bridgeCall = .ok r ↔
      ∃ bridge bridge' events, contracts.bridges token = some bridge ∧
      bridge.call sender bridgeCall = .ok (bridge', events) ∧
      r = (contracts.setBridge token bridge', events.map (.bridge token)) := by
  simp only [callBridge, bind_eq_ok, bridgeAt_eq_ok, pure_eq_ok]
  grind

/-- The registry of an initialized factory whose relayer is `R`: every listed token is a
configured bridge of that coin type which `R` alone may mint. -/
structure WellFormed (R : EvmAddress) (contracts : Contracts) : Prop where
  relayer_ne : R ≠ .zero
  ready : contracts.factory.initialized
  relayer : contracts.factory.relayer = R
  vacant : contracts.bridges .zero = none
  sound : ∀ {a b}, contracts.bridges a = some b → b.Sound
  listed : ∀ {s}, contracts.factory.tokenFor s ≠ .zero →
    ∃ b, contracts.bridges (contracts.factory.tokenFor s) = some b ∧ b.initialized ∧
      b.coinType = s ∧ b.relayer = R

namespace WellFormed

/-- No token is listed for two spellings. -/
theorem inj (hw : WellFormed R contracts) {s' : Bytes}
    (h : contracts.factory.tokenFor s ≠ .zero)
    (he : contracts.factory.tokenFor s = contracts.factory.tokenFor s') : s = s' := by
  obtain ⟨b, hb, -, rfl, -⟩ := hw.listed h
  obtain ⟨b', hb', -, rfl, -⟩ := hw.listed (he ▸ h)
  rw [he, hb'] at hb
  cases hb
  rfl

/-- The transactions that leave the relayer role where it is: anybody's, the relayer's own
`setRelayer` calls apart. -/
def Keeps (R sender : EvmAddress) : L2Call → Prop
  | .setFactoryRelayer _ => sender ≠ R
  | .bridge _ (.setRelayer _) => sender ≠ R
  | _ => True

/-- Listing a configured bridge. -/
theorem setToken (hw : WellFormed R contracts) (hb : contracts.bridges a = some bridge)
    (hi : bridge.initialized) (hs : bridge.coinType = s) (hr : bridge.relayer = R) :
    WellFormed R (contracts.setToken s a) := by
  refine ⟨hw.relayer_ne, hw.ready, hw.relayer, hw.vacant, hw.sound, fun {s'} hs' => ?_⟩
  by_cases he : s' = s
  · subst he
    rw [setToken_self] at hs' ⊢
    exact ⟨bridge, hb, hi, hs, hr⟩
  · rw [setToken_of_ne he] at hs' ⊢
    exact hw.listed hs'

/-- Writing a bridge that keeps its configuration, or one nothing lists. -/
theorem setBridge (hw : WellFormed R contracts) (ha : a ≠ .zero) (hb : bridge.Sound)
    (hkeep : ∀ s, contracts.factory.tokenFor s = a →
      bridge.initialized ∧ bridge.coinType = s ∧ bridge.relayer = R) :
    WellFormed R (contracts.setBridge a bridge) := by
  refine ⟨hw.relayer_ne, hw.ready, hw.relayer, ?_, fun {x b} hx => ?_, fun {s} hs => ?_⟩
  · rw [setBridge_of_ne ha.symm, hw.vacant]
  · by_cases he : x = a
    · subst he
      rw [setBridge_self] at hx
      cases hx
      exact hb
    · rw [setBridge_of_ne he] at hx
      exact hw.sound hx
  · rw [setBridge_factory] at hs ⊢
    by_cases he : contracts.factory.tokenFor s = a
    · rw [he, setBridge_self]
      exact ⟨bridge, rfl, hkeep s he⟩
    · rw [setBridge_of_ne he]
      exact hw.listed hs

theorem exec (hw : WellFormed R contracts) (hk : Keeps R sender call)
    (h : contracts.exec sender created call = .ok (contracts', logs)) :
    WellFormed R contracts' := by
  cases call with
  | initializeFactory relayer =>
    simp [Contracts.exec, initializeFactory, hw.ready] at h
  | createBridge name symbol coinType =>
    obtain ⟨-, -, -, hne, hnone, -, hr⟩ := createBridge_eq_ok.1 h
    cases hr
    -- The address is vacant, so nothing lists it before this listing.
    refine WellFormed.setToken (hw.setBridge hne ?_ fun s hs => ?_) setBridge_self rfl rfl
      hw.relayer
    · exact ⟨.zero, Nat.zero_le _, fun _ => rfl, by simp⟩
    · obtain ⟨b, hb, -⟩ := hw.listed (hs.trans_ne hne)
      rw [hs, hnone] at hb
      cases hb
  | adoptBridge coinType token =>
    obtain ⟨b, -, -, -, hlen, -, hb, hc, hrel, hr⟩ := adoptBridge_eq_ok.1 h
    cases hr
    have hi : b.initialized := by
      by_contra hni
      have hnil := (hw.sound hb).unconfigured (by simpa using hni)
      simp [← hc, hnil] at hlen
    exact hw.setToken hb hi hc (hrel.trans hw.relayer)
  | setFactoryRelayer next =>
    simp only [Contracts.exec, setFactoryRelayer, bind_eq_ok, require_eq_ok, exists_const] at h
    exact absurd (h.1.trans hw.relayer) hk
  | bridge token bridgeCall =>
    obtain ⟨b, b', events, hb, hcall, hr⟩ := callBridge_eq_ok.1 h
    cases hr
    have hne : token ≠ .zero := fun he => by rw [he, hw.vacant] at hb; cases hb
    refine hw.setBridge hne (Bridge.call_sound (hw.sound hb) hcall) fun s hs => ?_
    obtain ⟨x, hx, hi, hc, hrel⟩ := hw.listed (hs.trans_ne hne)
    rw [hs, hb] at hx
    cases hx
    obtain ⟨hi', hc', hrel'⟩ := Bridge.call_config hcall
    refine ⟨hi' hi, ?_, ?_⟩
    · rcases hc' with hc' | ⟨hf, -⟩
      · rw [hc', hc]
      · simp [hi] at hf
    · rcases hrel' with hrel' | ⟨next, rfl, hsender⟩ | ⟨hf, -⟩
      · rw [hrel', hrel]
      · exact absurd (hsender.trans hrel) hk
      · simp [hi] at hf

end WellFormed

/-- The transactions that mint nothing on a listed token: those of anybody but the relayer `R`,
token creations by anybody, and adoptions by `R` of a bridge nothing was minted on. -/
def Unprivileged (R : EvmAddress) (contracts : Contracts) (sender : EvmAddress) :
    L2Call → Bool
  | .createBridge _ _ _ => true
  | .adoptBridge _ token =>
    sender ≠ R || (contracts.bridges token).all fun bridge => !bridge.mintedAny
  | _ => sender ≠ R

theorem Unprivileged.keeps (h : Unprivileged R contracts sender call) :
    WellFormed.Keeps R sender call := by
  unfold WellFormed.Keeps
  split <;> simp_all [Unprivileged]

/-- A listing is never rewritten. -/
theorem exec_tokenFor (h : contracts.exec sender created call = .ok (contracts', logs))
    (hs : contracts.factory.tokenFor s ≠ .zero) :
    contracts'.factory.tokenFor s = contracts.factory.tokenFor s := by
  cases call with
  | initializeFactory relayer =>
    simp only [Contracts.exec, initializeFactory, bind_eq_ok, require_eq_ok, exists_const,
      pure_eq_ok, Prod.mk.injEq] at h
    rw [← h.2.2.1]
  | createBridge name symbol coinType =>
    obtain ⟨-, -, hzero, -, -, -, hr⟩ := createBridge_eq_ok.1 h
    cases hr
    exact setToken_of_ne fun he => hs (he ▸ hzero)
  | adoptBridge coinType token =>
    obtain ⟨b, -, -, -, -, hzero, -, -, -, hr⟩ := adoptBridge_eq_ok.1 h
    cases hr
    exact setToken_of_ne fun he => hs (he ▸ hzero)
  | setFactoryRelayer next =>
    simp only [Contracts.exec, setFactoryRelayer, bind_eq_ok, require_eq_ok, exists_const,
      pure_eq_ok, Prod.mk.injEq] at h
    rw [← h.2.2.1]
  | bridge token bridgeCall =>
    obtain ⟨b, b', events, -, -, hr⟩ := callBridge_eq_ok.1 h
    cases hr
    rfl

/-- A token listed after an unprivileged transaction was listed before it with the same mints,
or is new and has none. -/
theorem exec_listed (hw : WellFormed R contracts) (hp : Unprivileged R contracts sender call)
    (h : contracts.exec sender created call = .ok (contracts', logs))
    (hs : contracts'.factory.tokenFor s ≠ .zero) :
    ∃ b', contracts'.bridges (contracts'.factory.tokenFor s) = some b' ∧
      ((contracts.factory.tokenFor s = contracts'.factory.tokenFor s ∧
        ∃ b, contracts.bridges (contracts.factory.tokenFor s) = some b ∧ b.KeepsMints b') ∨
      (contracts.factory.tokenFor s = .zero ∧ b'.mintedAny = false)) := by
  cases call with
  | initializeFactory relayer =>
    simp [Contracts.exec, initializeFactory, hw.ready] at h
  | createBridge name symbol coinType =>
    obtain ⟨-, -, hzero, hne, hnone, -, hr⟩ := createBridge_eq_ok.1 h
    cases hr
    rw [setBridge_factory] at hs ⊢
    by_cases he : s = coinType
    · subst he
      rw [setToken_self, setBridge_self]
      exact ⟨_, rfl, .inr ⟨hzero, rfl⟩⟩
    · rw [setToken_of_ne he] at hs ⊢
      obtain ⟨b, hb, -⟩ := hw.listed hs
      have hother : contracts.factory.tokenFor s ≠ created := fun ha => by simp [ha, hnone] at hb
      rw [setBridge_of_ne hother, setToken_bridges]
      exact ⟨b, hb, .inl ⟨rfl, b, hb, .refl b⟩⟩
  | adoptBridge coinType token =>
    obtain ⟨b, hsender, -, -, -, hzero, hb, -, -, hr⟩ := adoptBridge_eq_ok.1 h
    cases hr
    rw [setToken_bridges]
    by_cases he : s = coinType
    · subst he
      rw [setToken_self]
      refine ⟨b, hb, .inr ⟨hzero, ?_⟩⟩
      simpa [Unprivileged, hsender, hw.relayer, hb] using hp
    · rw [setToken_of_ne he] at hs ⊢
      obtain ⟨b', hb', -⟩ := hw.listed hs
      exact ⟨b', hb', .inl ⟨rfl, b', hb', .refl b'⟩⟩
  | setFactoryRelayer next =>
    simp only [Contracts.exec, setFactoryRelayer, bind_eq_ok, require_eq_ok, exists_const] at h
    exact absurd (h.1.trans hw.relayer) (Unprivileged.keeps hp)
  | bridge token bridgeCall =>
    obtain ⟨b, b', events, hb, hcall, hr⟩ := callBridge_eq_ok.1 h
    cases hr
    rw [setBridge_factory] at hs ⊢
    obtain ⟨x, hx, -, -, hrel⟩ := hw.listed hs
    by_cases he : contracts.factory.tokenFor s = token
    · rw [he, hb] at hx
      cases hx
      rw [he, setBridge_self]
      have hsender : sender ≠ b.relayer := by simpa [Unprivileged, hrel] using hp
      exact ⟨b', rfl, .inl ⟨rfl, b, hb, Bridge.call_keepsMints (hw.sound hb) hsender hcall⟩⟩
    · rw [setBridge_of_ne he]
      exact ⟨x, hx, .inl ⟨rfl, x, hx, .refl x⟩⟩

/-- The contracts at genesis: a factory configured for the relayer `R`, and at `predeploy` a
bridge whose constructor never ran. -/
def genesis (R predeploy : EvmAddress) : Contracts where
  factory := { relayer := R, initialized := true, tokenFor := fun _ => .zero }
  bridges := fun a => if a = predeploy ∧ a ≠ .zero then some .blank else none

theorem genesis_wellFormed (hR : R ≠ .zero) (predeploy : EvmAddress) :
    WellFormed R (genesis R predeploy) := by
  refine ⟨hR, rfl, rfl, by simp [genesis], fun {a b} h => ?_, fun h => absurd rfl h⟩
  simp only [genesis, Option.ite_none_right_eq_some] at h
  obtain ⟨-, hb⟩ := h
  cases hb
  exact Bridge.blank_sound

end Contracts

end Podseq.Solidity
