import Podseq.Lib.Runs
import Podseq.Solidity.Bridge

/-! # The accounting of one token over all its calls

The `unchecked` blocks of a burn and of a transfer are justified by the sum of the balances.
Beside each of them stands the same code under checked arithmetic, which panics where the other
wraps: on a bridge that any calls have led to, the two agree.
-/
namespace Podseq.Solidity
open Podseq.Lib

namespace Bridge

/-! ## Checked arithmetic in place of `unchecked` -/

def subChecked (a b : Nat) : Evm Nat := if b ≤ a then .ok (a - b) else .error .panic

/-- `initiateWithdrawal` without its `unchecked` block. -/
def initiateWithdrawalChecked (bridge : Bridge) (sender : EvmAddress) (suiRecipient : Bytes32)
    (amount : Nat) : Evm (Bridge × List BridgeEvent) := do
  require (0 < amount) (.reason "Bridge: zero amount")
  require (suiRecipient ≠ .zero 32) (.reason "Bridge: zero recipient")
  let bal := bridge.balanceOf sender
  require (amount ≤ bal) (.reason "Bridge: insufficient balance")
  let balance ← subChecked bal amount
  let balanceOf := Function.update bridge.balanceOf sender balance
  let totalSupply ← subChecked bridge.totalSupply amount
  let nonce ← addUpTo u64Max .panic bridge.lastWithdrawalNonce 1
  return ({ bridge with balanceOf, totalSupply, lastWithdrawalNonce := nonce },
    [.withdrawalInitiated nonce sender suiRecipient amount, .transfer sender .zero amount])

/-- `_transfer` without its `unchecked` block. -/
def moveTokensChecked (bridge : Bridge) (source target : EvmAddress) (amount : Nat) :
    Evm (Bridge × List BridgeEvent) := do
  require (target ≠ .zero) (.reason "Bridge: transfer to zero")
  let bal := bridge.balanceOf source
  require (amount ≤ bal) (.reason "Bridge: insufficient balance")
  let balance ← subChecked bal amount
  let debited := Function.update bridge.balanceOf source balance
  let credited ← addUpTo u256Max .panic (debited target) amount
  let balanceOf := Function.update debited target credited
  return ({ bridge with balanceOf }, [.transfer source target amount])

def callChecked (bridge : Bridge) (sender : EvmAddress) :
    BridgeCall → Evm (Bridge × List BridgeEvent)
  | .initiateWithdrawal suiRecipient amount =>
    initiateWithdrawalChecked bridge sender suiRecipient amount
  | .transfer target amount => moveTokensChecked bridge sender target amount
  | .transferFrom source target amount => do
    let spent ← spendAllowance bridge source sender amount
    moveTokensChecked spent source target amount
  | call => bridge.call sender call

variable {bridge bridge' spent : Bridge} {events : List BridgeEvent}
  {sender source target : EvmAddress} {amount : Nat} {call : BridgeCall}

theorem subChecked_of_le {a b : Nat} (h : b ≤ a) : subChecked a b = .ok (a - b) := if_pos h

theorem initiateWithdrawalChecked_eq (hle : bridge.totalSupply ≤ u256Max)
    (htotal : Total bridge.balanceOf bridge.totalSupply) (suiRecipient : Bytes32) :
    bridge.initiateWithdrawalChecked sender suiRecipient amount =
      bridge.initiateWithdrawal sender suiRecipient amount := by
  have hsup := htotal.le sender
  unfold initiateWithdrawalChecked initiateWithdrawal
  by_cases hbal : amount ≤ bridge.balanceOf sender
  · simp only [subChecked_of_le hbal, subChecked_of_le (hbal.trans hsup), ok_bind,
      subWrapping_of_le hbal (hsup.trans hle), subWrapping_of_le (hbal.trans hsup) hle]
  · simp only [require, hbal, if_false]
    rfl

theorem moveTokensChecked_eq (hle : bridge.totalSupply ≤ u256Max)
    (htotal : Total bridge.balanceOf bridge.totalSupply) :
    bridge.moveTokensChecked source target amount = bridge.moveTokens source target amount := by
  unfold moveTokensChecked moveTokens
  by_cases hbal : amount ≤ bridge.balanceOf source
  · have hadd := (htotal.debit_add_le hbal target).trans hle
    simp only [subChecked_of_le hbal, subWrapping_of_le hbal ((htotal.le source).trans hle),
      addWrapping_of_le hadd, addUpTo_of_le hadd, ok_bind]
  · simp only [require, hbal, if_false]
    rfl

/-- Where the balances add up to the supply no `unchecked` block wraps. -/
theorem callChecked_eq (hs : Sound bridge) (sender : EvmAddress) (call : BridgeCall) :
    bridge.callChecked sender call = bridge.call sender call := by
  cases call with
  | initiateWithdrawal suiRecipient amount =>
    exact initiateWithdrawalChecked_eq hs.bounded hs.total suiRecipient
  | transfer target amount => exact moveTokensChecked_eq hs.bounded hs.total
  | transferFrom source target amount =>
    simp only [callChecked, Bridge.call, transferFrom]
    obtain ⟨e, hspend⟩ | ⟨spent, hspend⟩ :=
      error_or_ok (bridge.spendAllowance source sender amount)
    · rw [hspend]; rfl
    · obtain ⟨allowance, rfl⟩ := spendAllowance_cases hspend
      rw [hspend]
      exact moveTokensChecked_eq hs.bounded hs.total
  | _ => rfl

/-- A limited allowance covers what is moved under it, and is lowered by as much. -/
theorem allowance_of_transferFrom
    (h : bridge.transferFrom sender source target amount = .ok (bridge', events)) :
    bridge.allowance source sender = u256Max ∨
      bridge'.allowance source sender + amount = bridge.allowance source sender := by
  simp only [transferFrom, bind_eq_ok] at h
  obtain ⟨spent, hspend, hmove⟩ := h
  have hallowance : bridge'.allowance = spent.allowance := by
    simp only [moveTokens, bind_eq_ok, require_eq_ok, exists_const, pure_eq_ok,
      Prod.mk.injEq] at hmove
    obtain ⟨-, -, rfl, -⟩ := hmove
    rfl
  simp only [spendAllowance] at hspend
  split at hspend
  · simp only [bind_eq_ok, require_eq_ok, exists_const, pure_eq_ok] at hspend
    obtain ⟨hle, rfl⟩ := hspend
    right
    simp only [hallowance, setAllowance, Function.update_self]
    exact Nat.sub_add_cancel hle
  · rename_i hmax
    exact .inl (not_not.1 hmax)

end Bridge

/-! ## Runs of calls -/

/-- A bridge with the events of the calls on it. -/
structure TokenHistory where
  bridge : Bridge
  events : List BridgeEvent

namespace TokenHistory

/-- The transaction of one call: a call that reverts leaves no trace. -/
def transact (s : TokenHistory) (tx : EvmAddress × BridgeCall) : TokenHistory :=
  match s.bridge.call tx.1 tx.2 with
  | .ok (bridge, events) => ⟨bridge, s.events ++ events⟩
  | .error _ => s

/-- The genesis predeploy before it is configured, or a bridge as its constructor leaves it. -/
def Start (s : TokenHistory) : Prop :=
  s = ⟨.blank, []⟩ ∨ ∃ name symbol coinType relayer,
    Bridge.construct name symbol coinType relayer = .ok (s.bridge, s.events)

def step (s : TokenHistory) (tx : EvmAddress × BridgeCall) : Option TokenHistory :=
  some (s.transact tx)

variable {s t : TokenHistory} {tx : EvmAddress × BridgeCall}

theorem transact_of_revert {sender : EvmAddress} {call : BridgeCall} {e : Revert}
    (h : s.bridge.call sender call = .error e) : s.transact (sender, call) = s := by
  simp only [transact, h]

theorem start_sound (h : Start s) : s.bridge.Sound ∧ s.bridge.Accounts s.events := by
  obtain rfl | ⟨name, symbol, coinType, relayer, h⟩ := h
  · exact ⟨Bridge.blank_sound, Bridge.blank_accounts⟩
  · -- the constructor does what the first configuration of the predeploy does
    have hcall : Bridge.blank.call .zero (.initializeBridge name symbol coinType relayer) =
        .ok (s.bridge, s.events) := h
    exact ⟨Bridge.call_sound Bridge.blank_sound hcall,
      Bridge.call_accounts Bridge.blank_sound Bridge.blank_accounts hcall⟩

theorem transact_sound (h : s.bridge.Sound ∧ s.bridge.Accounts s.events)
    (tx : EvmAddress × BridgeCall) :
    (s.transact tx).bridge.Sound ∧ (s.transact tx).bridge.Accounts (s.transact tx).events := by
  unfold transact
  split
  · rename_i bridge events hcall
    exact ⟨Bridge.call_sound h.1 hcall, Bridge.call_accounts h.1 h.2 hcall⟩
  · exact h

/-- What the token owes its holders. -/
structure Accounted (s : TokenHistory) : Prop where
  /-- The balances of all accounts add up to the supply. -/
  total : Total s.bridge.balanceOf s.bridge.totalSupply
  /-- No `unchecked` block wraps in the next call. -/
  unwrapped : ∀ sender call, s.bridge.callChecked sender call = s.bridge.call sender call
  withdrawals : (Bridge.burnsIn s.events).map Prod.fst =
    List.range' 1 s.bridge.lastWithdrawalNonce
  deposits : ((Bridge.mintsIn s.events).map Prod.fst).Pairwise (· < ·)
  allowance : ∀ sender source target amount bridge' events,
    s.bridge.transferFrom sender source target amount = .ok (bridge', events) →
    s.bridge.allowance source sender = u256Max ∨
      bridge'.allowance source sender + amount = s.bridge.allowance source sender
  reverts : ∀ sender call e, s.bridge.call sender call = .error e → s.transact (sender, call) = s

/-- **The accounting of the token.** After every sequence of calls by any senders, reverted ones
included: the balances add up to the supply, no `unchecked` block wraps, withdrawal nonces count
from 1, deposit nonces increase, `transferFrom` stays within the allowance and a reverting call
changes nothing. -/
theorem token_accounted (hs : Reachable Start (enabled step) s) : Accounted s := by
  have hsound : s.bridge.Sound ∧ s.bridge.Accounts s.events := by
    refine hs.inv (I := fun s => s.bridge.Sound ∧ s.bridge.Accounts s.events)
      (fun s h => start_sound h) fun s tx t h hst => ?_
    cases hst
    exact transact_sound h tx
  exact {
    total := hsound.1.total
    unwrapped := Bridge.callChecked_eq hsound.1
    withdrawals := hsound.2.burnNonces
    deposits := hsound.2.ordered
    allowance := fun _ _ _ _ _ _ h => Bridge.allowance_of_transferFrom h
    reverts := fun _ _ _ h => transact_of_revert h }

/-- The relayer (1) mints 10 to 2, who moves 4 to itself and burns 3. -/
theorem token_accounted_burned :
    ∃ s : TokenHistory, (Bridge.burnsIn s.events).map Prod.fst = [1] ∧ Accounted s := by
  have hstart : Start ⟨.blank, []⟩ := .inl rfl
  have hrun : Run (enabled step) ⟨.blank, []⟩
      [(.repeated 1, .initializeBridge [] [] [] (.repeated 1)),
        (.repeated 1, .mint (.repeated 2) 10 0), (.repeated 2, .transfer (.repeated 2) 4),
        (.repeated 2, .initiateWithdrawal ⟨List.replicate 32 9, rfl⟩ 3)] _ :=
    run_of_execAll rfl
  exact ⟨_, rfl, token_accounted ⟨_, _, hstart, hrun⟩⟩

end TokenHistory

end Podseq.Solidity
