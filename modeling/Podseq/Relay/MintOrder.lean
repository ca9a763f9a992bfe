import Podseq.Lib.Runs
import Podseq.Move.Bridge
import Podseq.Solidity.BridgeFactory

/-! # Relaying deposits in nonce order

The vault numbers deposits of all coin types in one sequence and the relayer mints them in that
order, each on the token it resolved the coin type to. A token accepts its first mint only at
nonce 0, so the relay goes past a deposit exactly when its coin type was relayed before, or the
deposit is the first of all, and its recipient is not the zero address.
-/
namespace Podseq.Relay
open Podseq.Lib Podseq.Move Podseq.Solidity

/-- The vault, the L2 contracts and how far the relay got. -/
structure MintOrder where
  vault : Vault
  contracts : Contracts
  /-- The token each coin type is minted on, once the relayer has resolved it. -/
  canonical : CoinType → Option EvmAddress
  /-- The nonce of the next deposit to mint. -/
  next : Nat

namespace MintOrder

inductive Step
  | deposit (T : CoinType) (amount : Nat) (recipientL2 : Bytes)
  /-- A transaction that mints nothing on a listed token. -/
  | transact (sender created : EvmAddress) (call : L2Call)
  /-- The relayer takes the token listed under `spelling` as that of its coin type. -/
  | resolve (spelling : Bytes)
  /-- The relayer mints the next deposit. -/
  | mint

/-- The coin type of the deposit with nonce `n`. -/
def coinAt (w : MintOrder) (n : Nat) : Option CoinType :=
  (w.vault.deposits n).map DepositRecord.coinType

/-- The token and the call of the next mint. -/
def nextMint (w : MintOrder) : Option (EvmAddress × BridgeCall) := do
  let record ← w.vault.deposits w.next
  let token ← w.canonical record.coinType
  let recipient ← FixedBytes.ofBytes? 20 record.recipientL2
  return (token, .mint recipient record.amount w.next)

def setCanonical (w : MintOrder) (T : CoinType) (token : EvmAddress) : MintOrder :=
  { w with canonical := Function.update w.canonical T (some token) }

/-- One step, when it is enabled. `coinOf` is the coin type that a spelling names and `R` the
relayer's account; a coin's value is a `u64`. -/
def exec (coinOf : Bytes → CoinType) (R : EvmAddress) (w : MintOrder) : Step → Option MintOrder
  | .deposit T amount recipientL2 =>
    if amount ≤ u64Max then
      (w.vault.deposit T amount recipientL2).toOption.map fun vault => { w with vault }
    else none
  | .transact sender created call =>
    if w.contracts.Unprivileged R sender call then
      (w.contracts.exec sender created call).toOption.map fun r => { w with contracts := r.1 }
    else none
  | .resolve spelling =>
    let token := w.contracts.factory.tokenFor spelling
    if token ≠ .zero ∧ w.canonical (coinOf spelling) = none then
      some (w.setCanonical (coinOf spelling) token)
    else none
  | .mint =>
    w.nextMint.bind fun m =>
      (w.contracts.callBridge R m.1 m.2).toOption.map fun r =>
        { w with contracts := r.1, next := w.next + 1 }

def Start (R : EvmAddress) (w : MintOrder) : Prop :=
  R ≠ .zero ∧ ∃ id predeploy, w =
    ⟨Vault.initializeVault id, Contracts.genesis R predeploy, fun _ => none, 0⟩

/-! ## The relayed tokens -/

variable {coinOf : Bytes → CoinType} {R token recipient : EvmAddress} {w w' : MintOrder}
  {record : DepositRecord} {bridge : Bridge} {T : CoinType} {step : Step} {m : Nat} {s : Bytes}

@[simp] theorem setCanonical_self : (w.setCanonical T token).canonical T = some token :=
  Function.update_self ..

theorem setCanonical_of_ne {T' : CoinType} (h : T' ≠ T) :
    (w.setCanonical T token).canonical T' = w.canonical T' :=
  Function.update_of_ne h ..

/-- A deposit of `T` was relayed. -/
def Relayed (w : MintOrder) (T : CoinType) : Prop := ∃ m < w.next, w.coinAt m = some T

/-- What the storage of the token listed under `s` tells about the relay. -/
structure Tracks (coinOf : Bytes → CoinType) (w : MintOrder) (s : Bytes) (bridge : Bridge) :
    Prop where
  minted : bridge.mintedAny ↔
    w.canonical (coinOf s) = some (w.contracts.factory.tokenFor s) ∧ w.Relayed (coinOf s)
  last : bridge.mintedAny → bridge.lastMintedDepositNonce < w.next
  supply : bridge.totalSupply ≤ w.next * u64Max

structure Invariant (coinOf : Bytes → CoinType) (R : EvmAddress) (w : MintOrder) : Prop where
  wellFormed : w.contracts.WellFormed R
  filed : w.vault.Filed
  next_le : w.next ≤ w.vault.depositNonce
  listed : ∀ {T token}, w.canonical T = some token →
    ∃ s, coinOf s = T ∧ w.contracts.factory.tokenFor s = token ∧ token ≠ .zero
  resolved : ∀ {T}, w.Relayed T → w.canonical T ≠ none
  tracks : ∀ {s bridge}, w.contracts.factory.tokenFor s ≠ .zero →
    w.contracts.bridges (w.contracts.factory.tokenFor s) = some bridge → Tracks coinOf w s bridge

theorem start_invariant (h : Start R w) : Invariant coinOf R w := by
  obtain ⟨hR, id, predeploy, rfl⟩ := h
  exact ⟨Contracts.genesis_wellFormed hR predeploy, Vault.initializeVault_filed id,
    Nat.zero_le _, (nomatch ·), fun ⟨_, hm, _⟩ => absurd hm (Nat.not_lt_zero _),
    fun h => absurd rfl h⟩

/-- The deposits filed so far keep their coin types. -/
theorem coinAt_deposit {vault : Vault} {amount : Nat} {recipientL2 : Bytes}
    (h : w.vault.deposit T amount recipientL2 = .ok vault) (hm : m < w.vault.depositNonce) :
    ({ w with vault } : MintOrder).coinAt m = w.coinAt m := by
  obtain ⟨-, -, -, -, -, rfl⟩ := Vault.deposit_cases h
  simp only [coinAt, Function.update_of_ne (Nat.ne_of_lt hm)]

theorem Invariant.deposit (hw : Invariant coinOf R w) {vault : Vault} {amount : Nat}
    {recipientL2 : Bytes} (ha : amount ≤ u64Max)
    (h : w.vault.deposit T amount recipientL2 = .ok vault) :
    Invariant coinOf R { w with vault } := by
  have hsame : ∀ {T}, Relayed { w with vault } T ↔ w.Relayed T := fun {T} =>
    exists_congr fun m => and_congr_right fun hm => by
      rw [coinAt_deposit h (Nat.lt_of_lt_of_le hm hw.next_le)]
  have hle : w.next ≤ vault.depositNonce := by
    obtain ⟨-, -, -, -, -, rfl⟩ := Vault.deposit_cases h
    exact Nat.le_succ_of_le hw.next_le
  refine ⟨hw.wellFormed, Vault.deposit_filed hw.filed ha h, hle, hw.listed,
    fun hr => hw.resolved (hsame.1 hr), fun hs hb => ?_⟩
  obtain ⟨hminted, hlast, hsupply⟩ := hw.tracks hs hb
  exact ⟨hminted.trans (and_congr_right fun _ => hsame.symm), hlast, hsupply⟩

theorem Invariant.transact (hw : Invariant coinOf R w) {sender created : EvmAddress}
    {call : L2Call} {contracts : Contracts} {logs : List Log}
    (hp : w.contracts.Unprivileged R sender call)
    (h : w.contracts.exec sender created call = .ok (contracts, logs)) :
    Invariant coinOf R { w with contracts } := by
  have hwf := hw.wellFormed.exec (Contracts.Unprivileged.keeps hp) h
  have hlisted : ∀ {T token}, w.canonical T = some token →
      ∃ s, coinOf s = T ∧ contracts.factory.tokenFor s = token ∧ token ≠ .zero := by
    intro T token ht
    obtain ⟨s, hs, htoken, hne⟩ := hw.listed ht
    exact ⟨s, hs, (Contracts.exec_tokenFor h (htoken.trans_ne hne)).trans htoken, hne⟩
  refine ⟨hwf, hw.filed, hw.next_le, hlisted, hw.resolved, fun {s b} hs hb => ?_⟩
  obtain ⟨b', hb', hcase⟩ := Contracts.exec_listed hw.wellFormed hp h hs
  rw [hb'] at hb
  cases hb
  obtain ⟨hsame, x, hx, hkeep⟩ | ⟨hzero, hfresh⟩ := hcase
  · obtain ⟨hminted, hlast, hsupply⟩ := hw.tracks (hsame.trans_ne hs) hx
    exact ⟨by rw [hkeep.mintedAny, hminted, hsame]; rfl,
      by rw [hkeep.mintedAny, hkeep.lastMinted]; exact hlast, hkeep.totalSupply.trans hsupply⟩
  · -- A new listing is not yet the token of its coin type: the old one would share its address.
    refine ⟨⟨fun ht => by simp [hfresh] at ht, fun ⟨hc, _⟩ => ?_⟩,
      fun ht => by simp [hfresh] at ht, ?_⟩
    · obtain ⟨s', -, hs', hne⟩ := hw.listed hc
      have hold := Contracts.exec_tokenFor h (hs'.trans_ne hne)
      have he : s = s' := hwf.inj hs (hs'.symm.trans hold.symm)
      rw [← he, hzero] at hs'
      exact absurd hs'.symm hne
    · simp [(hwf.sound hb').unminted hfresh]

theorem Invariant.resolve (hw : Invariant coinOf R w)
    (hs : w.contracts.factory.tokenFor s ≠ .zero) (hnone : w.canonical (coinOf s) = none) :
    Invariant coinOf R (w.setCanonical (coinOf s) (w.contracts.factory.tokenFor s)) := by
  have hunrelayed : ¬ w.Relayed (coinOf s) := fun hr => hw.resolved hr hnone
  refine ⟨hw.wellFormed, hw.filed, hw.next_le, fun {T token} ht => ?_, fun {T} hr => ?_,
    fun {s' b} hs' hb => ?_⟩
  · by_cases he : T = coinOf s
    · rw [he, setCanonical_self, Option.some.injEq] at ht
      exact ⟨s, he.symm, ht, ht ▸ hs⟩
    · rw [setCanonical_of_ne he] at ht
      exact hw.listed ht
  · have he : T ≠ coinOf s := fun he => hunrelayed (he ▸ hr)
    rw [setCanonical_of_ne he]
    exact hw.resolved hr
  · obtain ⟨hminted, hlast, hsupply⟩ := hw.tracks hs' hb
    refine ⟨hminted.trans ?_, hlast, hsupply⟩
    by_cases he : coinOf s' = coinOf s
    · rw [he]
      exact ⟨fun h => absurd h.2 hunrelayed, fun h => absurd h.2 hunrelayed⟩
    · rw [setCanonical_of_ne he]
      rfl

theorem nextMint_eq_some {m : EvmAddress × BridgeCall} :
    w.nextMint = some m ↔ ∃ record token recipient, w.vault.deposits w.next = some record ∧
      w.canonical record.coinType = some token ∧
      FixedBytes.ofBytes? 20 record.recipientL2 = some recipient ∧
      m = (token, .mint recipient record.amount w.next) := by
  simp only [nextMint, Option.bind_eq_bind, Option.bind_eq_some_iff, Option.pure_def,
    Option.some.injEq]
  grind

theorem Invariant.mint (hw : Invariant coinOf R w) {contracts : Contracts} {logs : List Log}
    (hrec : w.vault.deposits w.next = some record)
    (htoken : w.canonical record.coinType = some token)
    (h : w.contracts.callBridge R token (.mint recipient record.amount w.next) =
      .ok (contracts, logs)) :
    Invariant coinOf R { w with contracts, next := w.next + 1 } := by
  have hkeep : Contracts.WellFormed.Keeps R R
      (.bridge token (.mint recipient record.amount w.next)) := trivial
  have hexec : w.contracts.exec R .zero
      (.bridge token (.mint recipient record.amount w.next)) = .ok (contracts, logs) := h
  have hwf : contracts.WellFormed R := hw.wellFormed.exec hkeep hexec
  obtain ⟨b, b', events, hb, hmint, hr⟩ := Contracts.callBridge_eq_ok.1 h
  obtain ⟨-, -, -, -, -, hb'⟩ := Bridge.mint_eq_ok.1 hmint
  cases hr
  cases hb'
  obtain ⟨s₀, hs₀, hlist, hne⟩ := hw.listed htoken
  have hlt : w.next < w.vault.depositNonce := (hw.filed.dense _).1 (by simp [hrec])
  have hcoin : w.coinAt w.next = some record.coinType := by simp [coinAt, hrec]
  -- The relay of this deposit adds its coin type and no other.
  have hrelayed : ∀ {T}, (∃ m < w.next + 1, w.coinAt m = some T) ↔
      w.Relayed T ∨ T = record.coinType := by
    intro T
    constructor
    · rintro ⟨m, hm, hT⟩
      rcases Nat.lt_succ_iff_lt_or_eq.1 hm with hm | rfl
      · exact .inl ⟨m, hm, hT⟩
      · exact .inr (Option.some.inj (hT.symm.trans hcoin))
    · rintro (⟨m, hm, hT⟩ | rfl)
      · exact ⟨m, Nat.lt_succ_of_lt hm, hT⟩
      · exact ⟨w.next, Nat.lt_succ_self _, hcoin⟩
  refine ⟨hwf, hw.filed, hlt, hw.listed, fun {T} hT => ?_, fun {s x} hs hx => ?_⟩
  · rcases hrelayed.1 hT with hT | rfl
    · exact hw.resolved hT
    · simp [htoken]
  · rw [Contracts.setBridge_factory] at hs hx
    have hamount := (hw.filed.amount hrec).2
    by_cases he : w.contracts.factory.tokenFor s = token
    · have hs' : s = s₀ := hw.wellFormed.inj hs (he.trans hlist.symm)
      obtain ⟨-, -, hsupply⟩ := hw.tracks hs (he ▸ hb)
      rw [he, Contracts.setBridge_self] at hx
      cases hx
      refine ⟨⟨fun _ => ⟨?_, hrelayed.2 (.inr (hs' ▸ hs₀))⟩, fun _ => rfl⟩,
        fun _ => Nat.lt_succ_self _, ?_⟩
      · rw [hs', hs₀, Contracts.setBridge_factory, hlist, htoken]
      · simp only [Nat.succ_mul]
        exact Nat.add_le_add hsupply hamount
    · rw [Contracts.setBridge_of_ne he] at hx
      obtain ⟨hminted, hlast, hsupply⟩ := hw.tracks hs hx
      refine ⟨hminted.trans ⟨fun hc => ⟨hc.1, hrelayed.2 (.inl hc.2)⟩, fun hc => ⟨hc.1, ?_⟩⟩,
        fun hm => Nat.lt_succ_of_lt (hlast hm),
        hsupply.trans (Nat.mul_le_mul_right _ (Nat.le_succ _))⟩
      rcases hrelayed.1 hc.2 with hT | hT
      · exact hT
      · have htok := hc.1
        rw [hT, htoken] at htok
        exact absurd (Option.some.inj htok).symm he

theorem step_invariant (hw : Invariant coinOf R w) (h : exec coinOf R w step = some w') :
    Invariant coinOf R w' := by
  cases step with
  | deposit T amount recipientL2 =>
    simp only [exec, Option.ite_none_right_eq_some, Option.map_eq_some_iff,
      toOption_eq_some] at h
    obtain ⟨ha, vault, hd, rfl⟩ := h
    exact hw.deposit ha hd
  | transact sender created call =>
    simp only [exec, Option.ite_none_right_eq_some, Option.map_eq_some_iff,
      toOption_eq_some] at h
    obtain ⟨hp, ⟨contracts, logs⟩, he, rfl⟩ := h
    exact hw.transact hp he
  | resolve spelling =>
    simp only [exec, Option.ite_none_right_eq_some, Option.some.injEq] at h
    obtain ⟨⟨hs, hnone⟩, rfl⟩ := h
    exact hw.resolve hs hnone
  | mint =>
    simp only [exec, Option.bind_eq_some_iff, Option.map_eq_some_iff, toOption_eq_some] at h
    obtain ⟨_, hm, ⟨contracts, logs⟩, hc, rfl⟩ := h
    obtain ⟨record, token, recipient, hrec, htoken, -, rfl⟩ := nextMint_eq_some.1 hm
    exact hw.mint hrec htoken hc

theorem reachable_invariant (h : Reachable (Start R) (enabled (exec coinOf R)) w) :
    Invariant coinOf R w :=
  h.inv (fun _ => start_invariant) fun _ _ _ => step_invariant

/-- **When the next deposit can be minted.** Its mint on the canonical token of its coin type
goes through exactly when the recipient is not the zero address and the deposit is the first of
all or not the first of its coin type. -/
theorem mint_accepted_iff (h : Reachable (Start R) (enabled (exec coinOf R)) w)
    (hrec : w.vault.deposits w.next = some record)
    (htoken : w.canonical record.coinType = some token)
    (hrecipient : FixedBytes.ofBytes? 20 record.recipientL2 = some recipient) :
    (∃ r, w.contracts.callBridge R token (.mint recipient record.amount w.next) = .ok r) ↔
      record.recipientL2 ≠ EvmAddress.zero.val ∧
      (w.next = 0 ∨ ∃ m < w.next, w.coinAt m = some record.coinType) := by
  rw [FixedBytes.ofBytes?_eq_some.1 hrecipient, Ne, ← Subtype.ext_iff]
  have hw := reachable_invariant h
  obtain ⟨s, hs, hlist, hne⟩ := hw.listed htoken
  have hlisted := hlist.trans_ne hne
  obtain ⟨b, hb, -, -, hrel⟩ := hw.wellFormed.listed hlisted
  obtain ⟨hminted, hlast, hsupply⟩ := hw.tracks hlisted hb
  have hfresh : b.freshNonce w.next ↔ b.mintedAny ∨ w.next = 0 := by
    unfold Bridge.freshNonce
    split
    · simp_all
    · simp_all
  have hfit : b.totalSupply + record.amount ≤ u256Max := by
    have hnext := (Nat.lt_of_lt_of_le ((hw.filed.dense w.next).1 (by simp [hrec]))
      hw.filed.bounded).le
    have hamount := (hw.filed.amount hrec).2
    have hprod := Nat.mul_le_mul_right u64Max hnext
    unfold u64Max u256Max at *
    omega
  have hbalance : b.balanceOf recipient + record.amount ≤ u256Max :=
    (Nat.add_le_add_right ((hw.wellFormed.sound hb).total.le _) _).trans hfit
  rw [hlist] at hb
  simp only [hs, hlist, htoken, true_and] at hminted
  constructor
  · rintro ⟨r, hr⟩
    obtain ⟨b', _, _, hb', hmint, -⟩ := Contracts.callBridge_eq_ok.1 hr
    rw [hb] at hb'
    cases hb'
    obtain ⟨-, hnonce, hzero, -⟩ := Bridge.mint_eq_ok.1 hmint
    exact ⟨hzero, (hfresh.1 hnonce).symm.imp_right hminted.1⟩
  · rintro ⟨hzero, hcase⟩
    have hnonce := hfresh.2 (hcase.symm.imp_left hminted.2)
    exact ⟨_, Contracts.callBridge_eq_ok.2 ⟨b, _, _, hb,
      Bridge.mint_eq_ok.2 ⟨hrel.symm, hnonce, hzero, hfit, hbalance, rfl⟩, rfl⟩⟩

/-- Two deposits of different coin types; the first is relayed, and the token of the second is
created and resolved. -/
def twoCoins : List Step :=
  [.deposit [97] 5 (EvmAddress.repeated 7).val, .deposit [98] 6 (EvmAddress.repeated 7).val,
    .transact (.repeated 1) (.repeated 2) (.createBridge [97] [97] [97]), .resolve [97], .mint,
    .transact (.repeated 1) (.repeated 3) (.createBridge [98] [98] [98]), .resolve [98]]

/-- Two deposits of one coin type, the first of which is relayed. -/
def oneCoinTwice : List Step :=
  [.deposit [97] 5 (EvmAddress.repeated 7).val, .deposit [97] 8 (EvmAddress.repeated 7).val,
    .transact (.repeated 1) (.repeated 2) (.createBridge [97] [97] [97]), .resolve [97], .mint]

/-- A vault without deposits, and an L2 without bridged tokens. -/
def before : MintOrder :=
  ⟨Vault.initializeVault 0, Contracts.genesis (.repeated 1) (.repeated 9), fun _ => none, 0⟩

/-- At nonce 1 a second deposit of the first coin type can be minted, one of a second cannot. -/
theorem mint_accepted_again : ∃ w w' : MintOrder, w.next = 1 ∧ w'.next = 1 ∧
    (∃ r, w.contracts.callBridge (.repeated 1) (.repeated 2) (.mint (.repeated 7) 8 w.next) =
      .ok r) ∧
    ¬∃ r, w'.contracts.callBridge (.repeated 1) (.repeated 3) (.mint (.repeated 7) 6 w'.next) =
      .ok r := by
  have hstart : Start (.repeated 1) before := ⟨by decide, 0, .repeated 9, rfl⟩
  obtain ⟨w, hrun, hnext, hrec, htoken, hcoin⟩ : ∃ w : MintOrder,
      Run (enabled (exec id (.repeated 1))) before oneCoinTwice w ∧ w.next = 1 ∧
      w.vault.deposits w.next = some ⟨8, (EvmAddress.repeated 7).val, [97]⟩ ∧
      w.canonical [97] = some (.repeated 2) ∧ w.coinAt 0 = some [97] :=
    ⟨_, run_of_execAll rfl, rfl, rfl, rfl, rfl⟩
  obtain ⟨w', hrun', hnext', hrec', htoken', hcoin'⟩ : ∃ w : MintOrder,
      Run (enabled (exec id (.repeated 1))) before twoCoins w ∧ w.next = 1 ∧
      w.vault.deposits w.next = some ⟨6, (EvmAddress.repeated 7).val, [98]⟩ ∧
      w.canonical [98] = some (.repeated 3) ∧ w.coinAt 0 = some [97] :=
    ⟨_, run_of_execAll rfl, rfl, rfl, rfl, rfl⟩
  have hagain := mint_accepted_iff ⟨_, _, hstart, hrun⟩ hrec htoken (FixedBytes.ofBytes?_val _)
  have hother := mint_accepted_iff ⟨_, _, hstart, hrun'⟩ hrec' htoken' (FixedBytes.ofBytes?_val _)
  refine ⟨w, w', hnext, hnext', hagain.2 ⟨by decide, .inr ⟨0, ?_, hcoin⟩⟩, fun h => ?_⟩
  · rw [hnext]
    exact Nat.zero_lt_one
  -- the only deposit before it is of the first coin type
  obtain ⟨-, hzero | ⟨m, hm, hcoin⟩⟩ := hother.1 h
  · rw [hnext'] at hzero
    cases hzero
  · rw [hnext'] at hm
    obtain rfl : m = 0 := Nat.lt_one_iff.1 hm
    rw [hcoin'] at hcoin
    cases hcoin

/-- The first deposit of a second coin type is not: its nonce is past 0. -/
theorem second_coin_stale : ∃ w : MintOrder,
    Reachable (Start (.repeated 1)) (enabled (exec id (.repeated 1))) w ∧
    w.vault.deposits w.next = some ⟨6, (EvmAddress.repeated 7).val, [98]⟩ ∧
    w.canonical [98] = some (.repeated 3) ∧ w.contracts.factory.tokenFor [98] = .repeated 3 ∧
    w.contracts.callBridge (.repeated 1) (.repeated 3) (.mint (.repeated 7) 6 w.next) =
      .error (.reason "Bridge: stale nonce") := by
  have hrun : Run (enabled (exec id (.repeated 1))) before twoCoins _ := run_of_execAll rfl
  exact ⟨_, ⟨_, _, ⟨by decide, 0, .repeated 9, rfl⟩, hrun⟩, rfl, rfl, rfl, rfl⟩

end MintOrder

end Podseq.Relay
