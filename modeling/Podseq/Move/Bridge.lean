import Podseq.Move.Rotation

/-! # `podseq::bridge`: the vault of locked coins

A coin type is identified by its type name, which is also the key the vault files its reserve
under.
-/
namespace Podseq.Move
open Podseq.Lib Rotation

/-- A Move coin type, as the canonical spelling `type_name::with_defining_ids` gives it. -/
abbrev CoinType := Bytes

structure BridgeCap where
  id : ObjectId
deriving DecidableEq, Repr

/-- One locked deposit. -/
structure DepositRecord where
  amount : Nat
  recipientL2 : Bytes
  coinType : Bytes
deriving DecidableEq, Repr

structure Vault where
  uid : Guarded BridgeCap
  depositNonce : Nat
  withdrawNonce : Nat
  reserves : Table Bytes Nat
  deposits : Table Nat DepositRecord
  processedWithdrawals : Table Bytes Unit

namespace Vault

def eZeroAmount : Abort := .code .bridge 0
def eInsufficientLiquidity : Abort := .code .bridge 1
def eInvalidRecipient : Abort := .code .bridge 2
def eRotated : Abort := .code .bridge 3

/-- The key of a coin type: the bytes of its type name. -/
def typeKey (T : CoinType) : Bytes := T

/-- The 8 little-endian bytes BCS writes for a `u64`. -/
def u64ToBytes (n : Nat) : Bytes := (List.range 8).map fun i => (n / 256 ^ i).toUInt8

/-- The dedup key of a release: coin type, then the L2 nonce. -/
def withdrawKey (T : CoinType) (l2Nonce : Nat) : Bytes := typeKey T ++ u64ToBytes l2Nonce

def initializeVault (id : ObjectId) : Vault :=
  { uid := Guarded.new id, depositNonce := 0, withdrawNonce := 0, reserves := Table.empty,
    deposits := Table.empty, processedWithdrawals := Table.empty }

/-- The locked balance of a coin type. -/
def reserve (vault : Vault) (T : CoinType) : Nat := (vault.reserves (typeKey T)).getD 0

/-- The coin held after `amount` more arrives: a first coin is filed as it is, a later one is
joined, which aborts when the value overflows. -/
def joinCoin (held : Option Nat) (amount : Nat) : Tx Nat :=
  match held with
  | some held => addU64 held amount
  | none => .ok amount

def deposit (vault : Vault) (T : CoinType) (amount : Nat) (recipientL2 : Bytes) : Tx Vault := do
  require (0 < amount) eZeroAmount
  require (recipientL2.length = 20) eInvalidRecipient
  let held ← joinCoin (vault.reserves (typeKey T)) amount
  let nonce := vault.depositNonce
  let deposits ← vault.deposits.add nonce { amount, recipientL2, coinType := typeKey T }
  let depositNonce ← addU64 nonce 1
  return { vault with
    reserves := Function.update vault.reserves (typeKey T) (some held)
    deposits, depositNonce }

/-- Retired: every call aborts. -/
def withdraw (_cap : BridgeCap) (_vault : Vault) (_recipient : Address) (_amount _l2Nonce : Nat) :
    Tx (Vault × Bool) :=
  .error eRotated

/-- The withdraw body: releases each `(T, l2Nonce)` once, and answers a retry with `false`. -/
def doWithdraw (vault : Vault) (T : CoinType) (_recipient : Address) (amount l2Nonce : Nat) :
    Tx (Vault × Bool) := do
  let key := withdrawKey T l2Nonce
  if vault.processedWithdrawals.contains key then
    return (vault, false)
  else
    let processedWithdrawals ← vault.processedWithdrawals.add key ()
    require (0 < amount) eZeroAmount
    match vault.reserves (typeKey T) with
    | none => .error eInsufficientLiquidity
    | some held =>
      require (amount ≤ held) eInsufficientLiquidity
      let withdrawNonce ← addU64 vault.withdrawNonce 1
      return ({ vault with
        processedWithdrawals, withdrawNonce
        reserves := Function.update vault.reserves (typeKey T) (some (held - amount)) }, true)

def withdrawAs (vault : Vault) (T : CoinType) (now : Nat) (recipient : Address)
    (amount l2Nonce : Nat) (sender : Address) : Tx (Vault × Bool) := do
  assertCanAct vault.uid now sender
  doWithdraw vault T recipient amount l2Nonce

def entombBridgeCap (cap : BridgeCap) (vault : Vault) : Tx Vault := do
  let uid ← entomb vault.uid cap
  return { vault with uid }

def entombBridgeCapOps (cap : BridgeCap) (vault : Vault) (sender : Address) (opsId : ObjectId) :
    Tx (Vault × OpsCap × Address) := do
  let (uid, minted) ← entombOps vault.uid cap sender opsId
  return ({ vault with uid }, minted)

def requestRotationOps (vault : Vault) (now : Nat) (toAddr : Address) (delayMs : Nat)
    (ops : OpsCap) : Tx Vault := do
  let uid ← Rotation.requestRotationOps vault.uid toAddr delayMs now ops
  return { vault with uid }

def cancelRotation (vault : Vault) (sender : Address) : Tx Vault := do
  let uid ← Rotation.cancelRotation vault.uid sender
  return { vault with uid }

def claimRotation (vault : Vault) (now : Nat) (sender : Address) : Tx Vault := do
  let uid ← Rotation.claimRotation vault.uid now sender
  return { vault with uid }

def retirePrevious (vault : Vault) (sender : Address) : Tx Vault := do
  let uid ← Rotation.retirePrevious vault.uid sender
  return { vault with uid }

/-! ## What the calls do -/

variable {vault vault' : Vault} {T : CoinType} {amount l2Nonce now : Nat} {recipientL2 : Bytes}
  {recipient sender : Address}

theorem joinCoin_cases {held : Option Nat} {sum : Nat} (h : joinCoin held amount = .ok sum) :
    sum = held.getD 0 + amount ∧ held.getD 0 + amount ≤ max u64Max amount := by
  unfold joinCoin at h
  cases held with
  | some v =>
    obtain ⟨hle, rfl⟩ := addU64_eq_ok.1 h
    exact ⟨rfl, Nat.le_trans hle (Nat.le_max_left _ _)⟩
  | none =>
    cases h
    exact ⟨by simp, by simp⟩

/-- A deposit raises the reserve of its coin type and files the record under the next nonce. -/
theorem deposit_cases (h : deposit vault T amount recipientL2 = .ok vault') :
    0 < amount ∧ recipientL2.length = 20 ∧ vault.depositNonce + 1 ≤ u64Max ∧
      vault.reserve T + amount ≤ max u64Max amount ∧
      vault.deposits vault.depositNonce = none ∧
      vault' = { vault with
        reserves := Function.update vault.reserves (typeKey T) (some (vault.reserve T + amount))
        deposits := Function.update vault.deposits vault.depositNonce
          (some ⟨amount, recipientL2, typeKey T⟩)
        depositNonce := vault.depositNonce + 1 } := by
  simp only [deposit, bind_eq_ok, require_eq_ok, exists_const, Table.add_eq_ok, addU64_eq_ok,
    pure_eq_ok] at h
  obtain ⟨h₁, h₂, held, hheld, -, ⟨h₃, rfl⟩, -, ⟨h₄, rfl⟩, rfl⟩ := h
  obtain ⟨rfl, hle⟩ := joinCoin_cases hheld
  exact ⟨h₁, h₂, h₄, hle, h₃, rfl⟩

theorem deposits_deposit (h : deposit vault T amount recipientL2 = .ok vault') (n : Nat) :
    vault'.deposits n = if n = vault.depositNonce then some ⟨amount, recipientL2, typeKey T⟩
      else vault.deposits n := by
  obtain ⟨-, -, -, -, -, rfl⟩ := deposit_cases h
  simp only [Function.update_apply]

/-- The deposit log: one record under each nonce given out. -/
structure Filed (vault : Vault) : Prop where
  dense : ∀ n, vault.deposits n ≠ none ↔ n < vault.depositNonce
  bounded : vault.depositNonce ≤ u64Max
  amount : ∀ {n d}, vault.deposits n = some d → 0 < d.amount ∧ d.amount ≤ u64Max
  recipient : ∀ {n d}, vault.deposits n = some d → d.recipientL2.length = 20

theorem initializeVault_filed (id : ObjectId) : Filed (initializeVault id) :=
  ⟨fun n => by simp [initializeVault], Nat.zero_le _, (nomatch ·), (nomatch ·)⟩

theorem deposit_filed (hf : vault.Filed) (ha : amount ≤ u64Max)
    (h : deposit vault T amount recipientL2 = .ok vault') : Filed vault' := by
  obtain ⟨hpos, hlen, hn, -, -, rfl⟩ := deposit_cases h
  have hdep := deposits_deposit h
  refine ⟨fun n => ?_, hn, fun {n d} hd => ?_, fun {n d} hd => ?_⟩
  · rw [hdep]
    dsimp only
    split
    · simp_all
    · rw [hf.dense]
      omega
  · rw [hdep] at hd
    split at hd
    · cases hd
      exact ⟨hpos, ha⟩
    · exact hf.amount hd
  · rw [hdep] at hd
    split at hd
    · cases hd
      exact hlen
    · exact hf.recipient hd

/-- Filing is about the deposits alone. -/
theorem Filed.congr (hf : vault.Filed) (hdeposits : vault'.deposits = vault.deposits)
    (hnonce : vault'.depositNonce = vault.depositNonce) : Filed vault' :=
  ⟨fun n => by rw [hdeposits, hnonce, hf.dense], hnonce ▸ hf.bounded,
    fun hd => hf.amount (hdeposits ▸ hd), fun hd => hf.recipient (hdeposits ▸ hd)⟩

/-- The vault after a release of `amount` under the pair `(T, l2Nonce)`. -/
def released (vault : Vault) (T : CoinType) (amount l2Nonce : Nat) : Vault :=
  { vault with
    processedWithdrawals := Function.update vault.processedWithdrawals
      (withdrawKey T l2Nonce) (some ())
    withdrawNonce := vault.withdrawNonce + 1
    reserves := Function.update vault.reserves (typeKey T) (some (vault.reserve T - amount)) }

/-- A withdrawal of a fresh pair `(T, l2Nonce)` lowers the reserve of `T`; a repeated one
changes nothing. -/
theorem doWithdraw_cases {r : Vault × Bool}
    (h : doWithdraw vault T recipient amount l2Nonce = .ok r) :
    (vault.processedWithdrawals (withdrawKey T l2Nonce) ≠ none ∧ r = (vault, false)) ∨
      (vault.processedWithdrawals (withdrawKey T l2Nonce) = none ∧ 0 < amount ∧
        amount ≤ vault.reserve T ∧ r = (vault.released T amount l2Nonce, true)) := by
  simp only [doWithdraw] at h
  by_cases hc : vault.processedWithdrawals.contains (withdrawKey T l2Nonce)
  · rw [if_pos hc, pure_eq_ok] at h
    subst h
    exact .inl ⟨by simpa [Table.contains, Option.isSome_iff_ne_none] using hc, rfl⟩
  · rw [if_neg hc] at h
    simp only [bind_eq_ok, Table.add_eq_ok, require_eq_ok, exists_const] at h
    obtain ⟨-, ⟨hk, rfl⟩, ha, h⟩ := h
    cases hr : vault.reserves (typeKey T) with
    | none => simp [hr] at h
    | some held =>
      simp only [hr, bind_eq_ok, require_eq_ok, exists_const, addU64_eq_ok, pure_eq_ok] at h
      obtain ⟨hle, -, ⟨-, rfl⟩, rfl⟩ := h
      exact .inr ⟨hk, ha, by simpa [reserve, hr] using hle, by simp [released, reserve, hr]⟩

theorem doWithdraw_deposits {moved : Bool}
    (h : doWithdraw vault T recipient amount l2Nonce = .ok (vault', moved)) :
    vault'.deposits = vault.deposits ∧ vault'.depositNonce = vault.depositNonce := by
  rcases doWithdraw_cases h with ⟨-, hr⟩ | ⟨-, -, -, hr⟩ <;> cases hr <;> exact ⟨rfl, rfl⟩

theorem withdrawAs_cases {r : Vault × Bool}
    (h : withdrawAs vault T now recipient amount l2Nonce sender = .ok r) :
    CanAct vault.uid now sender ∧
    ((vault.processedWithdrawals (withdrawKey T l2Nonce) ≠ none ∧ r = (vault, false)) ∨
      (vault.processedWithdrawals (withdrawKey T l2Nonce) = none ∧ 0 < amount ∧
        amount ≤ vault.reserve T ∧ r = (vault.released T amount l2Nonce, true))) := by
  simp only [withdrawAs, bind_eq_ok, assertCanAct_eq_ok, exists_const] at h
  exact ⟨h.1, doWithdraw_cases h.2⟩

theorem entombBridgeCapOps_eq_ok {cap : BridgeCap} {opsId : ObjectId}
    {r : Vault × OpsCap × Address} :
    entombBridgeCapOps cap vault sender opsId = .ok r ↔
      vault.uid.record = none ∧ vault.uid.opsMinted = false ∧ vault.uid.tomb = none ∧
      r = ({ vault with uid := { vault.uid with
        tomb := some cap, record := some ⟨sender, none, none⟩, opsMinted := true } },
        ⟨opsId, vault.uid.id⟩, sender) := by
  simp only [entombBridgeCapOps, bind_eq_ok, entombOps_eq_ok, pure_eq_ok]
  constructor
  · rintro ⟨_, ⟨h₁, h₂, h₃, rfl⟩, rfl⟩; exact ⟨h₁, h₂, h₃, rfl⟩
  · rintro ⟨h₁, h₂, h₃, rfl⟩; exact ⟨_, ⟨h₁, h₂, h₃, rfl⟩, rfl⟩

end Vault

end Podseq.Move
