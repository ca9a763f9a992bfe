import Podseq.Lib.Fallible
import Podseq.Lib.FixedBytes
import Podseq.Lib.Ledger

/-! # `Bridge.sol`: one bridged coin type on L2

A call returns the storage it leaves and the events it emitted, or reverts and leaves no trace.
Checked arithmetic is on `uint256` and `uint64`; `unchecked` blocks wrap.
-/
namespace Podseq.Solidity
open Podseq.Lib

abbrev EvmAddress := FixedBytes 20

abbrev Bytes32 := FixedBytes 32

def EvmAddress.zero : EvmAddress := FixedBytes.zero 20

def EvmAddress.repeated (b : UInt8) : EvmAddress := ⟨List.replicate 20 b, List.length_replicate⟩

inductive Revert
  /-- A failed `require`, with its message. -/
  | reason (message : String)
  /-- Overflow of checked arithmetic. -/
  | panic
  /-- A call to, or a creation at, an address that does not allow it. -/
  | badAddress
deriving DecidableEq, Repr

abbrev Evm (α : Type) := Except Revert α

def u256Max : Nat := 2 ^ 256 - 1

/-- `a + b` in an `unchecked` block. -/
def addWrapping (a b : Nat) : Nat := (a + b) % 2 ^ 256

/-- `a - b` in an `unchecked` block. -/
def subWrapping (a b : Nat) : Nat := (a + 2 ^ 256 - b) % 2 ^ 256

theorem addWrapping_of_le {a b : Nat} (h : a + b ≤ u256Max) : addWrapping a b = a + b :=
  Nat.mod_eq_of_lt (by unfold u256Max at h; omega)

theorem subWrapping_of_le {a b : Nat} (h : b ≤ a) (ha : a ≤ u256Max) :
    subWrapping a b = a - b := by
  unfold subWrapping u256Max at *
  rw [show a + 2 ^ 256 - b = a - b + 2 ^ 256 by omega, Nat.add_mod_right]
  exact Nat.mod_eq_of_lt (by omega)

inductive BridgeEvent
  | transfer (source target : EvmAddress) (value : Nat)
  | approval (owner spender : EvmAddress) (value : Nat)
  | depositMinted (nonce : Nat) (recipient : EvmAddress) (amount : Nat) (coinType : Bytes)
  | withdrawalInitiated (nonce : Nat) (source : EvmAddress) (suiRecipient : Bytes32)
      (amount : Nat)
  | relayerChanged (previous next : EvmAddress)
deriving DecidableEq, Repr

structure Bridge where
  name : Bytes
  symbol : Bytes
  coinType : Bytes
  totalSupply : Nat
  balanceOf : EvmAddress → Nat
  allowance : EvmAddress → EvmAddress → Nat
  relayer : EvmAddress
  lastMintedDepositNonce : Nat
  mintedAny : Bool
  lastWithdrawalNonce : Nat
  initialized : Bool

namespace Bridge

/-- Storage no constructor has run on: that of the genesis predeploy. -/
def blank : Bridge where
  name := []
  symbol := []
  coinType := []
  totalSupply := 0
  balanceOf := fun _ => 0
  allowance := fun _ _ => 0
  relayer := .zero
  lastMintedDepositNonce := 0
  mintedAny := false
  lastWithdrawalNonce := 0
  initialized := false

/-- `_setup`. -/
def setup (bridge : Bridge) (name symbol coinType : Bytes) (relayer : EvmAddress) :
    Evm (Bridge × List BridgeEvent) := do
  require (relayer ≠ .zero) (.reason "Bridge: zero relayer")
  return ({ bridge with initialized := true, name, symbol, coinType, relayer },
    [.relayerChanged .zero relayer])

def construct (name symbol coinType : Bytes) (relayer : EvmAddress) :
    Evm (Bridge × List BridgeEvent) :=
  setup blank name symbol coinType relayer

/-- `initialize`, the one-time configuration. -/
def initializeBridge (bridge : Bridge) (name symbol coinType : Bytes) (relayer : EvmAddress) :
    Evm (Bridge × List BridgeEvent) := do
  require (bridge.initialized = false) (.reason "Bridge: already initialized")
  setup bridge name symbol coinType relayer

/-- The nonce check of `mint`: the first nonce is 0, every later one exceeds the last. -/
def freshNonce (bridge : Bridge) (nonce : Nat) : Bool :=
  if bridge.mintedAny then bridge.lastMintedDepositNonce < nonce else nonce = 0

def mint (bridge : Bridge) (sender recipient : EvmAddress) (amount nonce : Nat) :
    Evm (Bridge × List BridgeEvent) := do
  require (sender = bridge.relayer) (.reason "Bridge: not relayer")
  require (bridge.freshNonce nonce) (.reason "Bridge: stale nonce")
  require (recipient ≠ .zero) (.reason "Bridge: mint to zero")
  let totalSupply ← addUpTo u256Max .panic bridge.totalSupply amount
  let balance ← addUpTo u256Max .panic (bridge.balanceOf recipient) amount
  return ({ bridge with
      lastMintedDepositNonce := nonce, mintedAny := true, totalSupply
      balanceOf := Function.update bridge.balanceOf recipient balance },
    [.depositMinted nonce recipient amount bridge.coinType, .transfer .zero recipient amount])

def setRelayer (bridge : Bridge) (sender next : EvmAddress) :
    Evm (Bridge × List BridgeEvent) := do
  require (sender = bridge.relayer) (.reason "Bridge: not relayer")
  require (next ≠ .zero) (.reason "Bridge: zero relayer")
  return ({ bridge with relayer := next }, [.relayerChanged bridge.relayer next])

def initiateWithdrawal (bridge : Bridge) (sender : EvmAddress) (suiRecipient : Bytes32)
    (amount : Nat) : Evm (Bridge × List BridgeEvent) := do
  require (0 < amount) (.reason "Bridge: zero amount")
  require (suiRecipient ≠ .zero 32) (.reason "Bridge: zero recipient")
  let bal := bridge.balanceOf sender
  require (amount ≤ bal) (.reason "Bridge: insufficient balance")
  let balanceOf := Function.update bridge.balanceOf sender (subWrapping bal amount)
  let totalSupply := subWrapping bridge.totalSupply amount
  let nonce ← addUpTo u64Max .panic bridge.lastWithdrawalNonce 1
  return ({ bridge with balanceOf, totalSupply, lastWithdrawalNonce := nonce },
    [.withdrawalInitiated nonce sender suiRecipient amount, .transfer sender .zero amount])

/-- `_transfer`. The two writes come one after the other, so that a transfer to oneself
credits the debited balance. -/
def moveTokens (bridge : Bridge) (source target : EvmAddress) (amount : Nat) :
    Evm (Bridge × List BridgeEvent) := do
  require (target ≠ .zero) (.reason "Bridge: transfer to zero")
  let bal := bridge.balanceOf source
  require (amount ≤ bal) (.reason "Bridge: insufficient balance")
  let debited := Function.update bridge.balanceOf source (subWrapping bal amount)
  let balanceOf := Function.update debited target (addWrapping (debited target) amount)
  return ({ bridge with balanceOf }, [.transfer source target amount])

def transfer (bridge : Bridge) (sender target : EvmAddress) (amount : Nat) :
    Evm (Bridge × List BridgeEvent) :=
  moveTokens bridge sender target amount

/-- `allowance[owner][spender] = amount`. -/
def setAllowance (bridge : Bridge) (owner spender : EvmAddress) (amount : Nat) :
    EvmAddress → EvmAddress → Nat :=
  Function.update bridge.allowance owner
    (Function.update (bridge.allowance owner) spender amount)

def approve (bridge : Bridge) (sender spender : EvmAddress) (amount : Nat) :
    Evm (Bridge × List BridgeEvent) :=
  .ok ({ bridge with allowance := bridge.setAllowance sender spender amount },
    [.approval sender spender amount])

/-- The allowance left after spending `amount`: an unlimited one is not used up. -/
def spendAllowance (bridge : Bridge) (source sender : EvmAddress) (amount : Nat) :
    Evm Bridge :=
  let allowed := bridge.allowance source sender
  if allowed ≠ u256Max then do
    require (amount ≤ allowed) (.reason "Bridge: insufficient allowance")
    return { bridge with allowance := bridge.setAllowance source sender (allowed - amount) }
  else .ok bridge

def transferFrom (bridge : Bridge) (sender source target : EvmAddress) (amount : Nat) :
    Evm (Bridge × List BridgeEvent) := do
  let spent ← spendAllowance bridge source sender amount
  moveTokens spent source target amount

end Bridge

inductive BridgeCall
  | initializeBridge (name symbol coinType : Bytes) (relayer : EvmAddress)
  | mint (recipient : EvmAddress) (amount nonce : Nat)
  | setRelayer (next : EvmAddress)
  | initiateWithdrawal (suiRecipient : Bytes32) (amount : Nat)
  | transfer (target : EvmAddress) (amount : Nat)
  | approve (spender : EvmAddress) (amount : Nat)
  | transferFrom (source target : EvmAddress) (amount : Nat)

namespace Bridge

def call (bridge : Bridge) (sender : EvmAddress) : BridgeCall → Evm (Bridge × List BridgeEvent)
  | .initializeBridge name symbol coinType relayer =>
    initializeBridge bridge name symbol coinType relayer
  | .mint recipient amount nonce => mint bridge sender recipient amount nonce
  | .setRelayer next => setRelayer bridge sender next
  | .initiateWithdrawal suiRecipient amount =>
    initiateWithdrawal bridge sender suiRecipient amount
  | .transfer target amount => transfer bridge sender target amount
  | .approve spender amount => approve bridge sender spender amount
  | .transferFrom source target amount => transferFrom bridge sender source target amount

/-! ## What the calls do -/

/-- Nonce and amount of the deposits minted in `events`. -/
def mintsIn (events : List BridgeEvent) : List (Nat × Nat) := events.filterMap fun
  | .depositMinted nonce _ amount _ => some (nonce, amount)
  | _ => none

/-- Nonce and amount of the withdrawals initiated in `events`. -/
def burnsIn (events : List BridgeEvent) : List (Nat × Nat) := events.filterMap fun
  | .withdrawalInitiated nonce _ _ amount => some (nonce, amount)
  | _ => none

variable {bridge bridge' : Bridge} {events : List BridgeEvent} {sender recipient : EvmAddress}
  {amount nonce : Nat} {call : BridgeCall}

theorem mint_eq_ok {r : Bridge × List BridgeEvent} :
    bridge.mint sender recipient amount nonce = .ok r ↔
      sender = bridge.relayer ∧ bridge.freshNonce nonce ∧ recipient ≠ .zero ∧
      bridge.totalSupply + amount ≤ u256Max ∧ bridge.balanceOf recipient + amount ≤ u256Max ∧
      r = ({ bridge with
          lastMintedDepositNonce := nonce, mintedAny := true
          totalSupply := bridge.totalSupply + amount
          balanceOf := Function.update bridge.balanceOf recipient
            (bridge.balanceOf recipient + amount) },
        [.depositMinted nonce recipient amount bridge.coinType,
          .transfer .zero recipient amount]) := by
  simp only [mint, bind_eq_ok, require_eq_ok, exists_const, addUpTo_eq_ok, pure_eq_ok]
  grind

/-- What a call leaves alone when it neither mints nor burns. -/
structure Quiet (bridge bridge' : Bridge) (events : List BridgeEvent) : Prop where
  totalSupply : bridge'.totalSupply = bridge.totalSupply
  lastMinted : bridge'.lastMintedDepositNonce = bridge.lastMintedDepositNonce
  mintedAny : bridge'.mintedAny = bridge.mintedAny
  lastWithdrawal : bridge'.lastWithdrawalNonce = bridge.lastWithdrawalNonce
  total : bridge.totalSupply ≤ u256Max → Total bridge.balanceOf bridge.totalSupply →
    Total bridge'.balanceOf bridge'.totalSupply
  noMint : mintsIn events = []
  noBurn : burnsIn events = []

theorem setup_quiet {name symbol coinType : Bytes} {relayer : EvmAddress}
    (h : setup bridge name symbol coinType relayer = .ok (bridge', events)) :
    Quiet bridge bridge' events := by
  simp only [setup, bind_eq_ok, require_eq_ok, exists_const, pure_eq_ok, Prod.mk.injEq] at h
  obtain ⟨-, rfl, rfl⟩ := h
  exact ⟨rfl, rfl, rfl, rfl, fun _ ht => ht, rfl, rfl⟩

theorem moveTokens_quiet {source target : EvmAddress}
    (h : moveTokens bridge source target amount = .ok (bridge', events)) :
    Quiet bridge bridge' events := by
  simp only [moveTokens, bind_eq_ok, require_eq_ok, exists_const, pure_eq_ok,
    Prod.mk.injEq] at h
  obtain ⟨-, hbal, rfl, rfl⟩ := h
  refine ⟨rfl, rfl, rfl, rfl, fun hle ht => ?_, rfl, rfl⟩
  have hsub : subWrapping (bridge.balanceOf source) amount = bridge.balanceOf source - amount :=
    subWrapping_of_le hbal ((ht.le source).trans hle)
  have hadd := (ht.debit_add_le hbal target).trans hle
  simp only [hsub, addWrapping_of_le hadd]
  exact ht.move hbal target

theorem spendAllowance_cases {source : EvmAddress} {spent : Bridge}
    (h : spendAllowance bridge source sender amount = .ok spent) :
    ∃ allowance, spent = { bridge with allowance } := by
  simp only [spendAllowance] at h
  split at h
  · simp only [bind_eq_ok, require_eq_ok, exists_const, pure_eq_ok] at h
    exact ⟨_, h.2.symm⟩
  · cases h
    exact ⟨bridge.allowance, rfl⟩

/-- Every call mints, or burns, or is quiet. -/
theorem call_cases (hle : bridge.totalSupply ≤ u256Max)
    (htotal : Total bridge.balanceOf bridge.totalSupply)
    (h : bridge.call sender call = .ok (bridge', events)) :
    (∃ recipient amount nonce, call = .mint recipient amount nonce ∧
      bridge.mint sender recipient amount nonce = .ok (bridge', events)) ∨
    (∃ suiRecipient amount, call = .initiateWithdrawal suiRecipient amount ∧ 0 < amount ∧
      amount ≤ bridge.balanceOf sender ∧ bridge.lastWithdrawalNonce + 1 ≤ u64Max ∧
      bridge' = { bridge with
        balanceOf := Function.update bridge.balanceOf sender (bridge.balanceOf sender - amount)
        totalSupply := bridge.totalSupply - amount
        lastWithdrawalNonce := bridge.lastWithdrawalNonce + 1 } ∧
      events = [.withdrawalInitiated (bridge.lastWithdrawalNonce + 1) sender suiRecipient amount,
        .transfer sender .zero amount]) ∨
    Quiet bridge bridge' events := by
  cases call with
  | initializeBridge name symbol coinType relayer =>
    simp only [Bridge.call, initializeBridge, bind_eq_ok, require_eq_ok, exists_const] at h
    exact .inr (.inr (setup_quiet h.2))
  | mint recipient amount nonce => exact .inl ⟨recipient, amount, nonce, rfl, h⟩
  | setRelayer next =>
    simp only [Bridge.call, setRelayer, bind_eq_ok, require_eq_ok, exists_const, pure_eq_ok,
      Prod.mk.injEq] at h
    obtain ⟨-, -, rfl, rfl⟩ := h
    exact .inr (.inr ⟨rfl, rfl, rfl, rfl, fun _ ht => ht, rfl, rfl⟩)
  | initiateWithdrawal suiRecipient amount =>
    simp only [Bridge.call, initiateWithdrawal, bind_eq_ok, require_eq_ok, exists_const,
      addUpTo_eq_ok, pure_eq_ok, Prod.mk.injEq] at h
    obtain ⟨hpos, -, hbal, -, ⟨hnonce, rfl⟩, rfl, rfl⟩ := h
    have hsup := htotal.le sender
    rw [subWrapping_of_le hbal (hsup.trans hle), subWrapping_of_le (hbal.trans hsup) hle]
    exact .inr (.inl ⟨suiRecipient, amount, rfl, hpos, hbal, hnonce, rfl, rfl⟩)
  | transfer target amount => exact .inr (.inr (moveTokens_quiet h))
  | approve spender amount =>
    cases h
    exact .inr (.inr ⟨rfl, rfl, rfl, rfl, fun _ ht => ht, rfl, rfl⟩)
  | transferFrom source target amount =>
    simp only [Bridge.call, transferFrom, bind_eq_ok] at h
    obtain ⟨spent, hspent, hmove⟩ := h
    obtain ⟨allowance, rfl⟩ := spendAllowance_cases hspent
    obtain ⟨h₁, h₂, h₃, h₄, h₅, h₆, h₇⟩ := moveTokens_quiet hmove
    exact .inr (.inr ⟨h₁, h₂, h₃, h₄, h₅, h₆, h₇⟩)

/-- Who may change the configuration: whoever configures it first, and the relayer. -/
theorem call_config (h : bridge.call sender call = .ok (bridge', events)) :
    (bridge.initialized → bridge'.initialized) ∧
    (bridge'.coinType = bridge.coinType ∨ bridge.initialized = false ∧ bridge'.initialized) ∧
    (bridge'.relayer = bridge.relayer ∨
      (∃ next, call = .setRelayer next ∧ sender = bridge.relayer) ∨
      bridge.initialized = false ∧ bridge'.initialized) := by
  cases call with
  | initializeBridge name symbol coinType relayer =>
    simp only [Bridge.call, initializeBridge, setup, bind_eq_ok, require_eq_ok, exists_const,
      pure_eq_ok, Prod.mk.injEq] at h
    obtain ⟨hi, -, rfl, rfl⟩ := h
    simp [hi]
  | mint recipient amount nonce =>
    obtain ⟨-, -, -, -, -, hr⟩ := mint_eq_ok.1 h
    cases hr
    simp
  | setRelayer next =>
    simp only [Bridge.call, setRelayer, bind_eq_ok, require_eq_ok, exists_const, pure_eq_ok,
      Prod.mk.injEq] at h
    obtain ⟨hs, -, rfl, rfl⟩ := h
    simp [hs]
  | initiateWithdrawal suiRecipient amount =>
    simp only [Bridge.call, initiateWithdrawal, bind_eq_ok, require_eq_ok, exists_const,
      addUpTo_eq_ok, pure_eq_ok, Prod.mk.injEq] at h
    obtain ⟨-, -, -, -, -, rfl, rfl⟩ := h
    simp
  | transfer target amount =>
    simp only [Bridge.call, transfer, moveTokens, bind_eq_ok, require_eq_ok, exists_const,
      pure_eq_ok, Prod.mk.injEq] at h
    obtain ⟨-, -, rfl, rfl⟩ := h
    simp
  | approve spender amount =>
    cases h
    simp
  | transferFrom source target amount =>
    simp only [Bridge.call, transferFrom, moveTokens, bind_eq_ok, require_eq_ok, exists_const,
      pure_eq_ok, Prod.mk.injEq] at h
    obtain ⟨spent, hspent, -, -, rfl, rfl⟩ := h
    obtain ⟨allowance, rfl⟩ := spendAllowance_cases hspent
    simp

/-- The accounting every bridge keeps, whoever calls it. -/
structure Sound (bridge : Bridge) : Prop where
  total : Total bridge.balanceOf bridge.totalSupply
  bounded : bridge.totalSupply ≤ u256Max
  unminted : bridge.mintedAny = false → bridge.totalSupply = 0
  unconfigured : bridge.initialized = false → bridge.coinType = []

theorem blank_sound : Sound blank := ⟨.zero, Nat.zero_le _, fun _ => rfl, fun _ => rfl⟩

theorem call_sound (hs : Sound bridge) (h : bridge.call sender call = .ok (bridge', events)) :
    Sound bridge' := by
  obtain ⟨hi, hc, -⟩ := call_config h
  have hunconf : bridge'.initialized = false → bridge'.coinType = [] := by
    intro hf
    have hf₀ : bridge.initialized = false := by
      by_contra hne
      simp [hi (by simpa using hne)] at hf
    rcases hc with hc | ⟨-, ht⟩
    · rw [hc, hs.unconfigured hf₀]
    · simp [ht] at hf
  obtain ⟨recipient, amount, nonce, -, hmint⟩ | ⟨_, amount, -, -, hbal, -, rfl, -⟩ | hq :=
    call_cases hs.bounded hs.total h
  · obtain ⟨-, -, -, hsup, -, hr⟩ := mint_eq_ok.1 hmint
    cases hr
    exact ⟨hs.total.credit _ _, hsup, by simp, hunconf⟩
  · refine ⟨hs.total.debit hbal, (Nat.sub_le _ _).trans hs.bounded, fun hm => ?_, hunconf⟩
    simp [hs.unminted hm]
  · refine ⟨hq.total hs.bounded hs.total, hq.totalSupply ▸ hs.bounded, fun hm => ?_, hunconf⟩
    rw [hq.totalSupply]
    exact hs.unminted (hq.mintedAny ▸ hm)

/-- What only a mint changes; burns lower the supply. -/
structure KeepsMints (bridge bridge' : Bridge) : Prop where
  mintedAny : bridge'.mintedAny = bridge.mintedAny
  lastMinted : bridge'.lastMintedDepositNonce = bridge.lastMintedDepositNonce
  totalSupply : bridge'.totalSupply ≤ bridge.totalSupply

theorem KeepsMints.refl (bridge : Bridge) : KeepsMints bridge bridge := ⟨rfl, rfl, Nat.le_refl _⟩

/-- Nobody but the relayer mints. -/
theorem call_keepsMints (hs : Sound bridge) (hsender : sender ≠ bridge.relayer)
    (h : bridge.call sender call = .ok (bridge', events)) : KeepsMints bridge bridge' := by
  obtain ⟨_, _, _, -, hmint⟩ | ⟨_, _, -, -, -, -, rfl, -⟩ | hq :=
    call_cases hs.bounded hs.total h
  · exact absurd (mint_eq_ok.1 hmint).1 hsender
  · exact ⟨rfl, rfl, Nat.sub_le _ _⟩
  · exact ⟨hq.mintedAny, hq.lastMinted, hq.totalSupply.le⟩

/-- The events a bridge has emitted account for its supply and its nonces. -/
structure Accounts (bridge : Bridge) (events : List BridgeEvent) : Prop where
  supply : bridge.totalSupply + ((burnsIn events).map Prod.snd).sum =
    ((mintsIn events).map Prod.snd).sum
  mintedAny : bridge.mintedAny ↔ mintsIn events ≠ []
  ordered : ((mintsIn events).map Prod.fst).Pairwise (· < ·)
  below : ∀ n ∈ (mintsIn events).map Prod.fst, n ≤ bridge.lastMintedDepositNonce
  last : bridge.mintedAny → bridge.lastMintedDepositNonce ∈ (mintsIn events).map Prod.fst
  first : bridge.mintedAny → 0 ∈ (mintsIn events).map Prod.fst
  burnNonces : (burnsIn events).map Prod.fst = List.range' 1 bridge.lastWithdrawalNonce
  burnAmounts : ∀ p ∈ burnsIn events, 0 < p.2
  unset : bridge.mintedAny = false → bridge.lastMintedDepositNonce = 0

theorem Accounts.unminted (ha : Accounts bridge events) (h : bridge.mintedAny = false) :
    mintsIn events = [] :=
  not_ne_iff.1 (mt ha.mintedAny.2 (by simp [h]))

theorem Accounts.unburned (ha : Accounts bridge events) (h : bridge.mintedAny = false) :
    burnsIn events = [] := by
  have hsum := ha.supply
  rw [ha.unminted h, List.map_nil, List.sum_nil] at hsum
  rw [List.eq_nil_iff_forall_not_mem]
  intro p hp
  have hle := List.single_le_sum (by simp) p.2 (List.mem_map_of_mem hp)
  have hpos := ha.burnAmounts p hp
  omega

/-- While the last nonce stands, nothing new is minted. -/
theorem Accounts.keepsMints {new : List BridgeEvent} (ha : Accounts bridge events)
    (ha' : Accounts bridge' (events ++ new)) (hk : KeepsMints bridge bridge') :
    mintsIn (events ++ new) = mintsIn events := by
  cases hany : bridge.mintedAny with
  | false => rw [ha.unminted hany, ha'.unminted (hk.mintedAny.trans hany)]
  | true =>
    have hsplit : mintsIn (events ++ new) = mintsIn events ++ mintsIn new :=
      List.filterMap_append
    have hnone : mintsIn new = [] := by
      rw [List.eq_nil_iff_forall_not_mem]
      intro p hp
      have hordered := ha'.ordered
      have hbelow := ha'.below p.1
      rw [hsplit, List.map_append] at hordered hbelow
      have hlt := (List.pairwise_append.1 hordered).2.2 _ (ha.last hany) _
        (List.mem_map_of_mem hp)
      have hle := hbelow (List.mem_append_right _ (List.mem_map_of_mem hp))
      have hlast := hk.lastMinted
      omega
    rw [hsplit, hnone, List.append_nil]

theorem blank_accounts : Accounts blank [] := by
  refine ⟨rfl, ?_, .nil, ?_, ?_, ?_, rfl, ?_, fun _ => rfl⟩ <;> simp [blank, mintsIn, burnsIn]

theorem call_accounts {past : List BridgeEvent} (hs : Sound bridge) (ha : Accounts bridge past)
    (h : bridge.call sender call = .ok (bridge', events)) :
    Accounts bridge' (past ++ events) := by
  have hmints : mintsIn (past ++ events) = mintsIn past ++ mintsIn events :=
    List.filterMap_append
  have hburns : burnsIn (past ++ events) = burnsIn past ++ burnsIn events :=
    List.filterMap_append
  obtain ⟨recipient, amount, nonce, -, hmint⟩ |
      ⟨suiRecipient, amount, -, hpos, hbal, -, rfl, rfl⟩ | hq :=
    call_cases hs.bounded hs.total h
  · obtain ⟨-, hnonce, -, -, -, hr⟩ := mint_eq_ok.1 hmint
    cases hr
    have hnew : mintsIn [.depositMinted nonce recipient amount bridge.coinType,
      .transfer .zero recipient amount] = [(nonce, amount)] := rfl
    -- the nonce check, read on the nonces minted before
    have hbelow : ∀ n ∈ (mintsIn past).map Prod.fst, n < nonce := by
      intro n hn
      have hany := ha.mintedAny.2 (fun hnil => by simp [hnil] at hn)
      simp only [freshNonce, hany, if_true, decide_eq_true_eq] at hnonce
      exact Nat.lt_of_le_of_lt (ha.below n hn) hnonce
    have hfirst : 0 ∈ ((mintsIn past).map Prod.fst) ++ [nonce] := by
      by_cases hany : bridge.mintedAny
      · exact List.mem_append_left _ (ha.first hany)
      · simp only [freshNonce, hany, Bool.false_eq_true, if_false, decide_eq_true_eq] at hnonce
        simp [hnonce]
    have hnone : burnsIn [.depositMinted nonce recipient amount bridge.coinType,
      .transfer .zero recipient amount] = [] := rfl
    rw [hnew] at hmints
    rw [hnone, List.append_nil] at hburns
    constructor
    · rw [hmints, hburns, List.map_append, List.sum_append, ← ha.supply]
      simp only [List.map_cons, List.map_nil, List.sum_cons, List.sum_nil]
      omega
    · simp [hmints]
    · rw [hmints, List.map_append, List.pairwise_append]
      refine ⟨ha.ordered, List.pairwise_singleton .., fun n hn m hm => ?_⟩
      rw [List.mem_singleton.1 hm]
      exact hbelow n hn
    · intro n hn
      rw [hmints, List.map_append, List.mem_append] at hn
      rcases hn with hn | hn
      · exact (hbelow n hn).le
      · simp_all
    · simp [hmints]
    · intro _
      rw [hmints, List.map_append]
      exact hfirst
    · rw [hburns]
      exact ha.burnNonces
    · rw [hburns]
      exact ha.burnAmounts
    · exact (nomatch ·)
  · have hnew : burnsIn [.withdrawalInitiated (bridge.lastWithdrawalNonce + 1) sender
      suiRecipient amount, .transfer sender .zero amount] =
        [(bridge.lastWithdrawalNonce + 1, amount)] := rfl
    have hnone : mintsIn [.withdrawalInitiated (bridge.lastWithdrawalNonce + 1) sender
      suiRecipient amount, .transfer sender .zero amount] = [] := rfl
    rw [hnew] at hburns
    rw [hnone, List.append_nil] at hmints
    -- a burn does not exceed what the sender holds, so nothing wraps around
    have hsup := hs.total.le sender
    refine ⟨?_, by rw [hmints]; exact ha.mintedAny, by rw [hmints]; exact ha.ordered,
      by rw [hmints]; exact ha.below, by rw [hmints]; exact ha.last,
      by rw [hmints]; exact ha.first, ?_, ?_, ha.unset⟩
    · rw [hmints, hburns, List.map_append, List.sum_append, ← ha.supply]
      simp only [List.map_cons, List.map_nil, List.sum_cons, List.sum_nil]
      omega
    · rw [hburns, List.map_append, ha.burnNonces, List.range'_concat]
      simp [Nat.add_comm]
    · intro p hp
      rw [hburns, List.mem_append] at hp
      rcases hp with hp | hp
      · exact ha.burnAmounts p hp
      · simp_all
  · rw [hq.noMint, List.append_nil] at hmints
    rw [hq.noBurn, List.append_nil] at hburns
    constructor
    · rw [hmints, hburns, hq.totalSupply]; exact ha.supply
    · rw [hmints, hq.mintedAny]; exact ha.mintedAny
    · rw [hmints]; exact ha.ordered
    · rw [hmints, hq.lastMinted]; exact ha.below
    · rw [hmints, hq.lastMinted, hq.mintedAny]; exact ha.last
    · rw [hmints, hq.mintedAny]; exact ha.first
    · rw [hburns, hq.lastWithdrawal]; exact ha.burnNonces
    · rw [hburns]; exact ha.burnAmounts
    · rw [hq.mintedAny, hq.lastMinted]; exact ha.unset

end Bridge

end Podseq.Solidity
