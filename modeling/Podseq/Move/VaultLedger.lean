import Podseq.Lib.LittleEndian
import Podseq.Lib.Runs
import Podseq.Move.Bridge

/-! # The vault over any sequence of calls

The events of the successful calls are the ledger: what was deposited and released of each coin
type, and under which withdrawal nonces. The reserves, the deposit log and the replay keys all
follow it.
-/
namespace Podseq.Move
open Podseq.Lib Rotation

/-! ## Replay keys -/

theorem Vault.u64ToBytes_eq (n : Nat) : Vault.u64ToBytes n = leBytes 8 n := rfl

/-- The key of a release determines its coin type and its nonce: the last eight bytes are the
nonce. -/
theorem Vault.withdrawKey_injective {T T' : CoinType} {n n' : Nat} (hn : n ≤ u64Max)
    (hn' : n' ≤ u64Max) (h : withdrawKey T n = withdrawKey T' n') : T = T' ∧ n = n' := by
  simp only [withdrawKey, typeKey, u64ToBytes_eq] at h
  obtain ⟨hT, hbytes⟩ := List.append_inj' h (by rw [length_leBytes, length_leBytes])
  refine ⟨hT, leBytes_injective ?_ ?_ hbytes⟩
  · unfold u64Max at hn
    omega
  · unfold u64Max at hn'
    omega

/-! ## Calls and events -/

/-- The events of `deposit` and of a release. -/
inductive VaultEvent
  | deposit (nonce : Nat) (record : DepositRecord)
  | withdrawal (nonce : Nat) (coinType : CoinType) (amount : Nat) (recipientSui : Address)
      (l2Nonce : Nat)
deriving DecidableEq, Repr

namespace VaultEvent

def depositedOf (T : CoinType) : VaultEvent → Nat
  | .deposit _ record => if record.coinType = T then record.amount else 0
  | .withdrawal .. => 0

def releasedOf (T : CoinType) : VaultEvent → Nat
  | .deposit .. => 0
  | .withdrawal _ coinType amount _ _ => if coinType = T then amount else 0

/-- The pair a release is made once for. -/
def releaseKey : VaultEvent → Option (CoinType × Nat)
  | .deposit .. => none
  | .withdrawal _ coinType _ _ l2Nonce => some (coinType, l2Nonce)

def record : VaultEvent → Option (Nat × DepositRecord)
  | .deposit nonce record => some (nonce, record)
  | .withdrawal .. => none

end VaultEvent

/-- The public functions that take the Vault mutably, each with its sender and the clock where
it reads them. -/
inductive VaultTx
  | deposit (T : CoinType) (amount : Nat) (recipientL2 : Bytes)
  | withdraw (cap : BridgeCap) (recipient : Address) (amount l2Nonce : Nat)
  | withdrawAs (T : CoinType) (now : Nat) (recipient : Address) (amount l2Nonce : Nat)
      (sender : Address)
  | entombBridgeCap (cap : BridgeCap)
  | entombBridgeCapOps (cap : BridgeCap) (sender : Address) (opsId : ObjectId)
  | requestRotationOps (now : Nat) (toAddr : Address) (delayMs : Nat) (ops : OpsCap)
  | cancelRotation (sender : Address)
  | claimRotation (now : Nat) (sender : Address)
  | retirePrevious (sender : Address)

namespace VaultTx

def WellTyped : VaultTx → Prop
  | .deposit _ amount _ => amount ≤ u64Max
  | .withdrawAs _ _ _ amount l2Nonce _ => amount ≤ u64Max ∧ l2Nonce ≤ u64Max
  | _ => True

instance : ∀ call : VaultTx, Decidable call.WellTyped
  | .deposit _ amount _ => inferInstanceAs (Decidable (amount ≤ u64Max))
  | .withdrawAs _ _ _ amount l2Nonce _ =>
    inferInstanceAs (Decidable (amount ≤ u64Max ∧ l2Nonce ≤ u64Max))
  | .withdraw .. => instDecidableTrue
  | .entombBridgeCap .. => instDecidableTrue
  | .entombBridgeCapOps .. => instDecidableTrue
  | .requestRotationOps .. => instDecidableTrue
  | .cancelRotation .. => instDecidableTrue
  | .claimRotation .. => instDecidableTrue
  | .retirePrevious .. => instDecidableTrue

def coinType : VaultTx → Option CoinType
  | .deposit T _ _ => some T
  | .withdrawAs T _ _ _ _ _ => some T
  | _ => none

/-- Runs the call: the vault it leaves, and its events. -/
def run (vault : Vault) : VaultTx → Tx (Vault × List VaultEvent)
  | .deposit T amount recipientL2 => do
    let vault' ← vault.deposit T amount recipientL2
    return (vault', [.deposit vault.depositNonce ⟨amount, recipientL2, Vault.typeKey T⟩])
  | .withdraw cap recipient amount l2Nonce => do
    let (vault', _) ← Vault.withdraw cap vault recipient amount l2Nonce
    return (vault', [])
  | .withdrawAs T now recipient amount l2Nonce sender => do
    let (vault', moved) ← vault.withdrawAs T now recipient amount l2Nonce sender
    return (vault', if moved then [.withdrawal vault.withdrawNonce T amount recipient l2Nonce]
      else [])
  | .entombBridgeCap cap => do
    let vault' ← Vault.entombBridgeCap cap vault
    return (vault', [])
  | .entombBridgeCapOps cap sender opsId => do
    let (vault', _) ← Vault.entombBridgeCapOps cap vault sender opsId
    return (vault', [])
  | .requestRotationOps now toAddr delayMs ops => do
    let vault' ← vault.requestRotationOps now toAddr delayMs ops
    return (vault', [])
  | .cancelRotation sender => do
    let vault' ← vault.cancelRotation sender
    return (vault', [])
  | .claimRotation now sender => do
    let vault' ← vault.claimRotation now sender
    return (vault', [])
  | .retirePrevious sender => do
    let vault' ← vault.retirePrevious sender
    return (vault', [])

end VaultTx

/-- The vault with the events of its history. -/
structure VaultLedger where
  vault : Vault
  events : List VaultEvent

namespace VaultLedger

def fresh (id : ObjectId) : VaultLedger := ⟨Vault.initializeVault id, []⟩

def exec (s : VaultLedger) (call : VaultTx) : VaultLedger :=
  match call.run s.vault with
  | .ok (vault, events) => ⟨vault, s.events ++ events⟩
  | .error _ => s

def deposited (s : VaultLedger) (T : CoinType) : Nat :=
  (s.events.map (VaultEvent.depositedOf T)).sum

def released (s : VaultLedger) (T : CoinType) : Nat :=
  (s.events.map (VaultEvent.releasedOf T)).sum

def releases (s : VaultLedger) : List (CoinType × Nat) :=
  s.events.filterMap VaultEvent.releaseKey

/-- The deposit records of the events, each with its nonce. -/
def records (s : VaultLedger) : List (Nat × DepositRecord) :=
  s.events.filterMap VaultEvent.record

/-- A call of well-typed arguments, whether it returns or aborts. -/
def Step (s : VaultLedger) (call : VaultTx) (s' : VaultLedger) : Prop :=
  call.WellTyped ∧ s' = s.exec call

/-! ## What one call does -/

variable {s s' : VaultLedger} {vault vault' : Vault} {call : VaultTx}
  {events : List VaultEvent} {T T' : CoinType} {n : Nat}

/-- A successful call either leaves the coins alone, or locks a deposit, or releases a pair for
the first time. -/
theorem run_cases (h : call.run vault = .ok (vault', events)) :
    (vault' = { vault with uid := vault'.uid } ∧ events = []) ∨
    (∃ T amount recipientL2, call = .deposit T amount recipientL2 ∧
      vault.deposit T amount recipientL2 = .ok vault' ∧
      events = [.deposit vault.depositNonce ⟨amount, recipientL2, T⟩]) ∨
    (∃ T now recipient amount l2Nonce sender,
      call = .withdrawAs T now recipient amount l2Nonce sender ∧
      vault.processedWithdrawals (Vault.withdrawKey T l2Nonce) = none ∧
      amount ≤ vault.reserve T ∧ vault' = vault.released T amount l2Nonce ∧
      events = [.withdrawal vault.withdrawNonce T amount recipient l2Nonce]) := by
  cases call with
  | deposit T amount recipientL2 =>
    simp only [VaultTx.run, bind_eq_ok, pure_eq_ok, Prod.mk.injEq] at h
    obtain ⟨_, hd, rfl, rfl⟩ := h
    exact .inr (.inl ⟨T, amount, recipientL2, rfl, hd, rfl⟩)
  | withdraw cap recipient amount l2Nonce =>
    cases h
  | withdrawAs T now recipient amount l2Nonce sender =>
    simp only [VaultTx.run, bind_eq_ok, pure_eq_ok, Prod.mk.injEq] at h
    obtain ⟨_, hw, rfl, rfl⟩ := h
    obtain ⟨-, ⟨-, rfl⟩ | ⟨hfree, -, hle, rfl⟩⟩ := Vault.withdrawAs_cases hw
    · exact .inl ⟨rfl, rfl⟩
    · exact .inr (.inr ⟨T, now, recipient, amount, l2Nonce, sender, rfl, hfree, hle, rfl, rfl⟩)
  | entombBridgeCap cap => cases h
  | _ =>
    simp only [VaultTx.run, Vault.entombBridgeCapOps, Vault.requestRotationOps,
      Vault.cancelRotation, Vault.claimRotation, Vault.retirePrevious, bind_eq_ok, pure_eq_ok,
      Prod.mk.injEq] at h
    obtain ⟨_, ⟨_, -, rfl⟩, rfl, rfl⟩ := h
    exact .inl ⟨rfl, rfl⟩

theorem exec_of_error {e : Abort} (h : call.run s.vault = .error e) : s.exec call = s := by
  rw [exec, h]

/-! ## The invariant -/

/-- The books are in order. -/
structure Solvent (s : VaultLedger) : Prop where
  /-- What is locked is what was deposited and not released. -/
  backed : ∀ T, s.vault.reserve T + s.released T = s.deposited T
  /-- No pair is released twice. -/
  once : s.releases.Nodup
  typed : ∀ p ∈ s.releases, p.2 ≤ u64Max
  /-- The replay keys are those of the releases. -/
  keys : ∀ key, s.vault.processedWithdrawals key ≠ none ↔
    ∃ p ∈ s.releases, key = Vault.withdrawKey p.1 p.2
  /-- Deposit nonces are given out one after another. -/
  dense : ∀ n, s.vault.deposits n ≠ none ↔ n < s.vault.depositNonce
  /-- Each record is stored under its nonce. -/
  filed : ∀ n record, s.vault.deposits n = some record ↔ (n, record) ∈ s.records

theorem fresh_solvent (id : ObjectId) : Solvent (fresh id) where
  backed T := rfl
  once := List.nodup_nil
  typed p hp := (List.not_mem_nil hp).elim
  keys key := by simp [fresh, Vault.initializeVault, releases]
  dense n := by simp [fresh, Vault.initializeVault]
  filed n record := by simp [fresh, Vault.initializeVault, records]

theorem reserve_update {x : Nat} :
    Vault.reserve { vault with
      reserves := Function.update vault.reserves (Vault.typeKey T) (some x) } T' =
    if T' = T then x else vault.reserve T' := by
  simp only [Vault.reserve, Vault.typeKey, Function.update_apply]
  split <;> rfl

/-- An event that the reserves account for keeps them backed. -/
theorem Solvent.backed_append (hs : Solvent s) {event : VaultEvent}
    (h : vault'.reserve T + event.releasedOf T = s.vault.reserve T + event.depositedOf T) :
    vault'.reserve T + released ⟨vault', s.events ++ [event]⟩ T =
      deposited ⟨vault', s.events ++ [event]⟩ T := by
  have hb := hs.backed T
  simp only [deposited, released, List.map_append, List.sum_append, List.map_cons, List.map_nil,
    List.sum_cons, List.sum_nil] at hb ⊢
  omega

theorem Solvent.deposit {amount : Nat} {recipientL2 : Bytes} (hs : Solvent s)
    (h : s.vault.deposit T amount recipientL2 = .ok vault') :
    Solvent ⟨vault', s.events ++ [.deposit s.vault.depositNonce ⟨amount, recipientL2, T⟩]⟩ := by
  have hdep := Vault.deposits_deposit h
  obtain ⟨-, -, -, -, -, hvault⟩ := Vault.deposit_cases h
  have hnonce : vault'.depositNonce = s.vault.depositNonce + 1 := by rw [hvault]
  have hkeys : vault'.processedWithdrawals = s.vault.processedWithdrawals := by rw [hvault]
  have hreserve : ∀ T', vault'.reserve T' =
      if T' = T then s.vault.reserve T + amount else s.vault.reserve T' := by
    intro T'
    rw [hvault]
    exact reserve_update
  have hreleases : releases ⟨vault', s.events ++
      [.deposit s.vault.depositNonce ⟨amount, recipientL2, T⟩]⟩ = s.releases := by
    simp [releases, List.filterMap_append, VaultEvent.releaseKey]
  refine ⟨fun T' => ?_, hreleases ▸ hs.once, hreleases ▸ hs.typed, fun key => ?_, fun n => ?_,
    fun n record => ?_⟩
  · refine hs.backed_append ?_
    rw [hreserve, VaultEvent.releasedOf, VaultEvent.depositedOf]
    by_cases hT : T' = T
    · rw [if_pos hT, if_pos hT.symm, hT, Nat.add_zero]
    · rw [if_neg hT, if_neg (Ne.symm hT)]
  · rw [hreleases]
    dsimp only
    rw [hkeys]
    exact hs.keys key
  · dsimp only
    rw [hdep, hnonce]
    split
    · simp_all
    · rw [hs.dense]
      omega
  · have hmem : (n, record) ∈ records ⟨vault', s.events ++
        [.deposit s.vault.depositNonce ⟨amount, recipientL2, T⟩]⟩ ↔
        (n, record) ∈ s.records ∨ n = s.vault.depositNonce ∧ record = ⟨amount, recipientL2, T⟩ := by
      simp [records, List.filterMap_append, VaultEvent.record]
    rw [hmem, hdep, ← hs.filed]
    split
    · rename_i hn
      -- The nonce is new, so no record was stored under it.
      have hnone : s.vault.deposits n = none := by
        have hd := (hs.dense n).not
        rw [not_not] at hd
        exact hd.2 (by omega)
      rw [hnone]
      simp [hn, Vault.typeKey, eq_comm]
    · rename_i hn
      simp [hn]

theorem Solvent.release {amount l2Nonce : Nat} {recipient : Address} (hs : Solvent s)
    (hn : l2Nonce ≤ u64Max)
    (hfree : s.vault.processedWithdrawals (Vault.withdrawKey T l2Nonce) = none)
    (hle : amount ≤ s.vault.reserve T) :
    Solvent ⟨s.vault.released T amount l2Nonce,
      s.events ++ [.withdrawal s.vault.withdrawNonce T amount recipient l2Nonce]⟩ := by
  have hreserve : ∀ T', (s.vault.released T amount l2Nonce).reserve T' =
      if T' = T then s.vault.reserve T - amount else s.vault.reserve T' :=
    fun T' => reserve_update
  have hreleases : releases ⟨s.vault.released T amount l2Nonce, s.events ++
      [.withdrawal s.vault.withdrawNonce T amount recipient l2Nonce]⟩ =
      s.releases ++ [(T, l2Nonce)] := by
    simp [releases, List.filterMap_append, VaultEvent.releaseKey]
  have hnew : (T, l2Nonce) ∉ s.releases := by
    intro hmem
    exact (hs.keys _).2 ⟨_, hmem, rfl⟩ hfree
  have hrecords : records ⟨s.vault.released T amount l2Nonce, s.events ++
      [.withdrawal s.vault.withdrawNonce T amount recipient l2Nonce]⟩ = s.records := by
    simp [records, List.filterMap_append, VaultEvent.record]
  refine ⟨fun T' => ?_, ?_, fun p hp => ?_, fun key => ?_, hs.dense, fun n record => ?_⟩
  · refine hs.backed_append ?_
    rw [hreserve, VaultEvent.releasedOf, VaultEvent.depositedOf]
    by_cases hT : T' = T
    · rw [if_pos hT, if_pos hT.symm, hT]
      omega
    · rw [if_neg hT, if_neg (Ne.symm hT)]
  · rw [hreleases]
    refine List.nodup_append.2 ⟨hs.once, List.nodup_singleton _, fun p hp q hq => ?_⟩
    rw [List.mem_singleton.1 hq]
    exact fun he => hnew (he ▸ hp)
  · rw [hreleases] at hp
    rcases List.mem_append.1 hp with hp | hp
    · exact hs.typed p hp
    · rw [List.mem_singleton.1 hp]
      exact hn
  · rw [hreleases]
    simp only [Vault.released, Function.update_apply, List.mem_append, List.mem_singleton]
    split
    · rename_i hkey
      simp only [ne_eq, reduceCtorEq, not_false_eq_true, true_iff]
      exact ⟨_, .inr rfl, hkey⟩
    · rename_i hkey
      rw [hs.keys]
      constructor
      · rintro ⟨p, hp, he⟩
        exact ⟨p, .inl hp, he⟩
      · rintro ⟨p, hp | rfl, he⟩
        · exact ⟨p, hp, he⟩
        · exact absurd he hkey
  · rw [hrecords]
    exact hs.filed n record

theorem exec_solvent (hs : Solvent s) (ht : call.WellTyped) : Solvent (s.exec call) := by
  unfold exec
  split
  · rename_i vault events hrun
    rcases run_cases hrun with ⟨hv, rfl⟩ | ⟨T, amount, recipientL2, -, hd, rfl⟩ |
      ⟨T, now, recipient, amount, l2Nonce, sender, rfl, hfree, hle, rfl, rfl⟩
    · rw [hv, List.append_nil]
      exact ⟨hs.backed, hs.once, hs.typed, hs.keys, hs.dense, hs.filed⟩
    · exact hs.deposit hd
    · exact hs.release ht.2 hfree hle
  · exact hs

/-- A call that moves one coin type leaves the reserve and the replay keys of every other one
alone. -/
theorem exec_frame {T T' : CoinType} {n : Nat} (ht : call.WellTyped)
    (hT : call.coinType = some T) (hne : T' ≠ T) (hn : n ≤ u64Max) :
    (s.exec call).vault.reserve T' = s.vault.reserve T' ∧
      (s.exec call).vault.processedWithdrawals (Vault.withdrawKey T' n) =
        s.vault.processedWithdrawals (Vault.withdrawKey T' n) := by
  unfold exec
  split
  · rename_i vault events hrun
    rcases run_cases hrun with ⟨hv, -⟩ | ⟨T₁, amount, recipientL2, rfl, hd, -⟩ |
      ⟨T₁, now, recipient, amount, l2Nonce, sender, rfl, -, -, rfl, -⟩
    · rw [hv]
      exact ⟨rfl, rfl⟩
    · cases hT
      obtain ⟨-, -, -, -, -, rfl⟩ := Vault.deposit_cases hd
      exact ⟨reserve_update.trans (if_neg hne), rfl⟩
    · cases hT
      refine ⟨reserve_update.trans (if_neg hne), Function.update_of_ne ?_ _ _⟩
      exact fun he => hne (Vault.withdrawKey_injective hn ht.2 he).1
  · exact ⟨rfl, rfl⟩

/-- After any sequence of calls the books are in order; and whatever the next call is, it
concerns one coin type only, and leaves the vault as it was when it aborts. -/
theorem vault_solvent {id : ObjectId} (h : Reachable (· = fresh id) Step s) :
    Solvent s ∧
    (∀ call T T' n, call.WellTyped → call.coinType = some T → T' ≠ T → n ≤ u64Max →
      (s.exec call).vault.reserve T' = s.vault.reserve T' ∧
        (s.exec call).vault.processedWithdrawals (Vault.withdrawKey T' n) =
          s.vault.processedWithdrawals (Vault.withdrawKey T' n)) ∧
    (∀ T T' n n', n ≤ u64Max → n' ≤ u64Max →
      Vault.withdrawKey T n = Vault.withdrawKey T' n' → T = T' ∧ n = n') ∧
    ∀ call e, call.run s.vault = .error e → (s.exec call).vault = s.vault := by
  refine ⟨h.inv ?_ ?_, fun _ _ _ _ => exec_frame, fun _ _ _ _ => Vault.withdrawKey_injective,
    fun _ _ he => by rw [exec_of_error he]⟩
  · rintro _ rfl
    exact fresh_solvent id
  · rintro s call _ hs ⟨ht, rfl⟩
    exact exec_solvent hs ht

/-- Two deposits, then a withdrawal by the authority that is sent twice. -/
theorem vault_solvent_twice : ∃ s : VaultLedger, Solvent s ∧ s.vault.reserve [97] = 3 ∧
    s.releases = [([97], 0)] := by
  have hrun : Run Step (fresh 0) [.deposit [97] 5 (List.replicate 20 0),
      .deposit [98] 6 (List.replicate 20 0), .entombBridgeCapOps ⟨1⟩ 9 2,
      .withdrawAs [97] 0 7 2 0 9, .withdrawAs [97] 0 7 2 0 9] _ :=
    .cons ⟨by decide, rfl⟩ <| .cons ⟨by decide, rfl⟩ <| .cons ⟨trivial, rfl⟩ <|
      .cons ⟨by decide, rfl⟩ <| .cons ⟨by decide, rfl⟩ .nil
  exact ⟨_, (vault_solvent ⟨_, _, rfl, hrun⟩).1, rfl, rfl⟩

end VaultLedger

end Podseq.Move
