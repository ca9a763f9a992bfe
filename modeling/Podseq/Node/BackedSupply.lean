import Podseq.Move.VaultLedger
import Podseq.Node.BurnsServed
import Podseq.Node.DepositCursor

/-! # L2 supply is backed

The tokens of a coin type carry what was minted and not burnt, and the vault holds what was
deposited and not released, so the supply is backed as long as no deposit is minted on two
tokens. A mint on one token is no obstacle to one on another: the relayer asks only the token
it has chosen, and without its file it may choose a twin.
-/
namespace Podseq.Node
open Podseq.Lib Podseq.Move Podseq.Solidity

/-! ## Burns in the logs -/

/-- What a log burns on one of `tokens`. -/
def burntOn (tokens : Finset EvmAddress) : Nat × Log → Nat
  | (_, .bridge token (.withdrawalInitiated _ _ _ amount)) => if token ∈ tokens then amount else 0
  | _ => 0

theorem burntOn_log (tokens : Finset EvmAddress) (log : Nat × Log) :
    ∑ t ∈ tokens, ((Bridge.burnsIn (log.2.eventOf t).toList).map Prod.snd).sum =
      burntOn tokens log := by
  obtain ⟨block, event | ⟨token, event⟩⟩ := log
  · simp [Log.eventOf, Bridge.burnsIn, burntOn]
  · have hpick : ∀ amount, ∑ t ∈ tokens, (if token = t then amount else 0) =
        if token ∈ tokens then amount else 0 := fun amount => Finset.sum_ite_eq ..
    have hsum : ∀ t, ((Bridge.burnsIn ((Log.bridge token event).eventOf t).toList).map
        Prod.snd).sum = if token = t then ((Bridge.burnsIn [event]).map Prod.snd).sum else 0 := by
      intro t
      rw [Log.eventOf]
      split <;> rfl
    simp only [hsum, hpick]
    cases event <;> simp [Bridge.burnsIn, burntOn]

/-- The burns of the tokens one by one are those of the logs one by one. -/
theorem sum_burnsIn (tokens : Finset EvmAddress) (logs : List (Nat × Log)) :
    ∑ t ∈ tokens, ((Bridge.burnsIn (logs.filterMap fun log => log.2.eventOf t)).map Prod.snd).sum =
      (logs.map (burntOn tokens)).sum := by
  induction logs with
  | nil => simp [Bridge.burnsIn]
  | cons log logs ih =>
    have hsplit : ∀ t, ((Bridge.burnsIn ((log :: logs).filterMap
          fun log => log.2.eventOf t)).map Prod.snd).sum =
        ((Bridge.burnsIn (log.2.eventOf t).toList).map Prod.snd).sum +
          ((Bridge.burnsIn (logs.filterMap fun log => log.2.eventOf t)).map Prod.snd).sum := by
      intro t
      rw [List.filterMap_cons]
      cases log.2.eventOf t with
      | none => simp [Bridge.burnsIn]
      | some event =>
        simp only [Bridge.burnsIn, Option.toList_some]
        rw [← List.singleton_append, List.filterMap_append, List.map_append, List.sum_append]
    simp only [hsplit, Finset.sum_add_distrib, ih, burntOn_log, List.map_cons, List.sum_cons]

/-- A burn is read with at most the amount of its log. -/
theorem sum_burnsOf_le (tokens : Finset EvmAddress) (logs : List (Nat × Log)) :
    (((burnsOf logs).filter fun burn => burn.token ∈ tokens).map Burn.amount).sum ≤
      (logs.map (burntOn tokens)).sum := by
  induction logs with
  | nil => exact Nat.le_refl _
  | cons log logs ih =>
    rw [burnsOf, List.filterMap_cons, List.map_cons, List.sum_cons]
    cases hburn : Burn.ofLog log with
    | none => exact ih.trans (Nat.le_add_left ..)
    | some burn =>
      unfold Burn.ofLog at hburn
      split at hburn
      · rename_i block token nonce sender recipient amount
        cases hburn
        have hmod := Nat.mod_le amount (2 ^ 64)
        simp only [List.filter_cons, burntOn]
        split
        · rename_i hmem
          rw [if_pos (of_decide_eq_true hmem), List.map_cons, List.sum_cons]
          exact Nat.add_le_add hmod ih
        · exact ih.trans (Nat.le_add_left ..)
      · cases hburn

namespace BridgeWorld

variable {types : CoinTypeSyntax} {R : EvmAddress} {w w' : BridgeWorld} {a : Action}
  {relayer : Relayer} {rpc : Rpc} {disk : Disk} {token : EvmAddress} {burn : Burn} {T : CoinType}
  {n amount : Nat}

/-! ## Mints of one deposit -/

/-- The transaction was mined and reverted. -/
def Failed (w : BridgeWorld) (i : Nat) : Prop :=
  ∃ receipt, w.receipts i = some receipt ∧ receipt.success = false

/-- A mint is sent only once every mint of the same deposit on another token has failed. -/
def OneToken (w : BridgeWorld) : Action → Prop
  | .relay _ _ => ∀ relayer latest record token, w.process = .running relayer →
      relayer.phase = .minting latest record token → ∀ i token' recipient amount,
        w.sent[i]? = some (.mint token' recipient amount relayer.cursors.nextDepositNonce) →
          token' ≠ token → w.Failed i
  | _ => True

/-- Of two mints of one deposit on different tokens, one has failed. -/
def Single (w : BridgeWorld) : Prop := ∀ i j token token' recipient recipient' amount amount' n,
  w.sent[i]? = some (.mint token recipient amount n) →
    w.sent[j]? = some (.mint token' recipient' amount' n) → token ≠ token' →
      w.Failed i ∨ w.Failed j

theorem Failed.keep {i : Nat} (h : Effect types R w a w') (hf : w.Failed i) : w'.Failed i := by
  obtain ⟨receipt, hr, hfail⟩ := hf
  exact ⟨receipt, receipts_keep h hr, hfail⟩

theorem getElem?_concat_cases {l : List RelayTx} {tx tx' : RelayTx} {i : Nat}
    (h : (l ++ [tx])[i]? = some tx') : l[i]? = some tx' ∨ tx' = tx := by
  rw [List.getElem?_append] at h
  split at h
  · exact .inl h
  · obtain ⟨_, he⟩ := List.getElem?_eq_some_iff.1 h
    exact .inr (List.mem_singleton.1 (he ▸ List.getElem_mem _))

theorem Single.effect (hw : Base types R w) (hone : OneToken w a) (hs : Single w)
    (h : Effect types R w a w') : Single w' := by
  intro i j token token' recipient recipient' amount amount' n hi hj hne
  suffices hsuff : w.Failed i ∨ w.Failed j from
    hsuff.imp (Failed.keep h) (Failed.keep h)
  rcases sent_cases hw h with he | ⟨rpc, disk, relayer, tx, rfl, hp, hsends, he⟩
  · rw [he] at hi hj
    exact hs _ _ _ _ _ _ _ _ _ hi hj hne
  · rw [he] at hi hj
    have hold := getElem?_concat_cases hi
    have hold' := getElem?_concat_cases hj
    clear hi hj
    cases hsends with
    | create hphase =>
      rcases hold with hi | hi
      · rcases hold' with hj | hj
        · exact hs _ _ _ _ _ _ _ _ _ hi hj hne
        · cases hj
      · cases hi
    | @mint latest record target _ hphase =>
      have hguard := hone relayer latest record target hp hphase
      rcases hold with hi | hi <;> rcases hold' with hj | hj
      · exact hs _ _ _ _ _ _ _ _ _ hi hj hne
      · cases hj
        exact .inl (hguard i _ _ _ hi hne)
      · cases hi
        exact .inr (hguard j _ _ _ hj hne.symm)
      · cases hi
        cases hj
        exact absurd rfl hne

theorem start_single (h : Start R w) : Single w := by
  obtain ⟨hR, id, predeploy, rfl⟩ := h
  intro i j token token' recipient recipient' amount amount' n hi
  simp [fresh] at hi

theorem reachable_single
    (h : Reachable (Start R) (guarded OneToken (enabled (exec types R))) w) : Single w :=
  h.inv_of (I := fun w => Single w) (J := fun w => Base types R w)
    (fun _ hr => reachable_base hr.of_guarded) (fun _ => start_single)
    fun _ _ _ hw _ hs hstep => hs.effect hw hstep.1 (exec_effect hstep.2)

/-! ## What the vault holds -/

/-- What the deposit `n` locked of `T`. -/
def depositedOf (vault : Vault) (T : CoinType) (n : Nat) : Nat :=
  match vault.deposits n with
  | some record => if record.coinType = T then record.amount else 0
  | none => 0

/-- What was paid out for burns of the tokens of `T`. -/
def paidOf (types : CoinTypeSyntax) (w : BridgeWorld) (T : CoinType) : Nat :=
  ((w.paid.filter fun burn => burn.token ∈ tokensOf types w.chain T).map Burn.amount).sum

structure Accounted (types : CoinTypeSyntax) (w : BridgeWorld) : Prop where
  nodup : w.paid.Nodup
  logged : ∀ {burn}, burn ∈ w.paid → burn ∈ burnsOf w.chain.logs
  processed : ∀ {burn}, burn ∈ w.paid → ∃ T, types.isName T ∧ Spelled types w.chain T burn.token ∧
    w.vault.processedWithdrawals (Vault.withdrawKey T burn.nonce) ≠ none
  locked : ∀ {T}, types.isName T → w.vault.reserve T + paidOf types w T =
    ∑ n ∈ Finset.range w.vault.depositNonce, depositedOf w.vault T n

/-- The task releases a burn of the logs, for the coin type of its token. -/
theorem releasing_spelled (hw : Base types R w) (hs : Sourced w) (ht : Traced types w)
    (hp : w.process = .running relayer) {latest : Nat} {rest : List Burn} {coin : Bytes}
    (hphase : relayer.phase = .releasing latest (burn :: rest))
    (hcoin : relayer.tokens.coinFor burn.token = some coin) (hparse : types.parse coin = some T) :
    burn ∈ burnsOf w.chain.logs ∧ types.isName T ∧ Spelled types w.chain T burn.token := by
  obtain ⟨hregistered, hinformed⟩ := ht.running hp
  rw [Informed, hphase] at hinformed
  have hlogged := hinformed burn List.mem_cons_self
  have hknown := hregistered.known ((hregistered.paired _ _).1 hcoin)
  -- A token that has burnt something was minted on, for a deposit of its own coin type.
  obtain ⟨hne, s, hfor⟩ := hknown.listed
  obtain ⟨bridge, hb, -⟩ := hw.sound.wellFormed.listed (hfor.trans_ne hne)
  rw [hfor] at hb
  have hmints : Bridge.mintsIn (w.chain.eventsOf burn.token) ≠ [] := by
    intro hnil
    have haccounts := hw.sound.accounts hb
    refine burnsIn_ne_nil hlogged (haccounts.unburned ?_)
    by_contra hany
    exact haccounts.mintedAny.1 (by simpa using hany) hnil
  obtain ⟨⟨n, amount⟩, hmint⟩ := List.exists_mem_of_ne_nil _ hmints
  obtain ⟨i, recipient, receipt, htx, -, -⟩ := hs _ _ _ hknown.listed hmint
  obtain ⟨⟨record, ⟨hfiled, hdue⟩, -⟩, -⟩ := ht.sent (List.mem_of_getElem? htx)
  obtain rfl := hknown.inj hw.sound hdue
  have hname := hw.named hfiled
  obtain rfl := types.parse_name hname hparse
  exact ⟨hlogged, hname, hknown.spelled hname⟩

/-- What was paid out stays where it was, as the chain moves on. -/
theorem Accounted.paidOf_later (hw : Base types R w) (hw' : Base types R w')
    (ha : Accounted types w) (hl : w.chain.Later w'.chain) (hpaid : w'.paid = w.paid) :
    paidOf types w' T = paidOf types w T := by
  unfold paidOf
  rw [hpaid]
  congr 2
  refine List.filter_congr fun burn hburn => ?_
  obtain ⟨T', -, hspelled, -⟩ := ha.processed hburn
  rw [decide_eq_decide, mem_tokensOf hw.sound, mem_tokensOf hw'.sound]
  exact spelled_later hw'.sound hl hspelled.listed

theorem Accounted.deposit {amount : Nat} {recipientL2 : Bytes} (hw : Base types R w)
    (hw' : Base types R w') (ha : Accounted types w) (hchain : w'.chain = w.chain)
    (hpaid : w'.paid = w.paid) (h : w.vault.deposit T amount recipientL2 = .ok w'.vault) :
    Accounted types w' := by
  obtain ⟨-, -, -, -, -, hvault⟩ := Vault.deposit_cases h
  refine ⟨hpaid ▸ ha.nodup, fun hburn => hchain ▸ ha.logged (hpaid ▸ hburn), fun hburn => ?_,
    fun {T'} hname => ?_⟩
  · obtain ⟨T', hname, hspelled, hkey⟩ := ha.processed (hpaid ▸ hburn)
    exact ⟨T', hname, hchain ▸ hspelled, by rw [hvault]; exact hkey⟩
  · have hlocked := ha.locked hname
    have hsame : paidOf types w' T' = paidOf types w T' :=
      ha.paidOf_later hw hw' (hchain ▸ .refl _) hpaid
    have hreserve : w'.vault.reserve T' =
        if T' = T then w.vault.reserve T + amount else w.vault.reserve T' := by
      rw [hvault]
      exact VaultLedger.reserve_update
    have hnonce : w'.vault.depositNonce = w.vault.depositNonce + 1 := by rw [hvault]
    have hlast : depositedOf w'.vault T' w.vault.depositNonce = if T = T' then amount else 0 := by
      rw [depositedOf, Vault.deposits_deposit h, if_pos rfl]
      rfl
    have hold : ∑ n ∈ Finset.range w.vault.depositNonce, depositedOf w'.vault T' n =
        ∑ n ∈ Finset.range w.vault.depositNonce, depositedOf w.vault T' n := by
      refine Finset.sum_congr rfl fun n hn => ?_
      rw [depositedOf, Vault.deposits_deposit h, if_neg (Finset.mem_range.1 hn).ne]
      rfl
    rw [hsame, hreserve, hnonce, Finset.sum_range_succ, hold, hlast, ← hlocked]
    by_cases hT : T' = T
    · rw [if_pos hT, if_pos hT.symm, hT]
      omega
    · rw [if_neg hT, if_neg (Ne.symm hT)]
      omega

theorem Accounted.release (hw : Base types R w) (ha : Accounted types w)
    (hlogged : burn ∈ burnsOf w.chain.logs) (hname : types.isName T)
    (hspelled : Spelled types w.chain T burn.token)
    (hfree : w.vault.processedWithdrawals (Vault.withdrawKey T burn.nonce) = none)
    (hle : burn.amount ≤ w.vault.reserve T) (hchain : w'.chain = w.chain)
    (hvault : w'.vault = w.vault.released T burn.amount burn.nonce)
    (hpaid : w'.paid = burn :: w.paid) : Accounted types w' := by
  have hnew : burn ∉ w.paid := by
    intro hmem
    obtain ⟨T', hname', hspelled', hkey⟩ := ha.processed hmem
    obtain rfl := hspelled.inj hw.sound hname hname' hspelled'
    exact hkey hfree
  refine ⟨hpaid ▸ List.nodup_cons.2 ⟨hnew, ha.nodup⟩, fun {b} hb => ?_, fun {b} hb => ?_,
    fun {T'} hname' => ?_⟩
  · rw [hpaid] at hb
    rw [hchain]
    rcases List.mem_cons.1 hb with rfl | hb
    · exact hlogged
    · exact ha.logged hb
  · rw [hpaid] at hb
    rw [hchain, hvault]
    rcases List.mem_cons.1 hb with rfl | hb
    · exact ⟨T, hname, hspelled, by simp [Vault.released]⟩
    · obtain ⟨T', hname', hspelled', hkey⟩ := ha.processed hb
      refine ⟨T', hname', hspelled', ?_⟩
      simp only [Vault.released, Function.update_apply]
      split
      · exact Option.some_ne_none _
      · exact hkey
  · have hlocked := ha.locked hname'
    have hreserve : w'.vault.reserve T' =
        if T' = T then w.vault.reserve T - burn.amount else w.vault.reserve T' := by
      rw [hvault]
      exact VaultLedger.reserve_update
    have hdeposits : ∀ n, depositedOf w'.vault T' n = depositedOf w.vault T' n := by
      intro n
      rw [hvault]
      rfl
    have hnonce : w'.vault.depositNonce = w.vault.depositNonce := by rw [hvault]; rfl
    have hmem : burn.token ∈ tokensOf types w.chain T' ↔ T' = T := by
      rw [mem_tokensOf hw.sound]
      exact ⟨fun h => h.inj hw.sound hname' hname hspelled, fun h => h ▸ hspelled⟩
    -- the payment is for a token of `T`, and counts for no other coin type
    have hpaidOf : paidOf types w' T' =
        (if T' = T then burn.amount else 0) + paidOf types w T' := by
      unfold paidOf
      rw [hpaid, hchain, List.filter_cons]
      by_cases hT : T' = T
      · rw [if_pos (decide_eq_true (hmem.2 hT)), if_pos hT, List.map_cons, List.sum_cons]
      · rw [if_neg (by simpa [hmem] using hT), if_neg hT, Nat.zero_add]
    rw [hpaidOf, hreserve, hnonce, Finset.sum_congr rfl fun n _ => hdeposits n, ← hlocked]
    by_cases hT : T' = T
    · subst hT
      rw [if_pos rfl, if_pos rfl]
      omega
    · rw [if_neg hT, if_neg hT, Nat.zero_add]

theorem Accounted.effect (hw : Base types R w) (hw' : Base types R w') (hs : Sourced w)
    (ht : Traced types w) (ha : Accounted types w) (h : Effect types R w a w') :
    Accounted types w' := by
  have hlater := (grows_effect hw h).later
  have hkeep : w'.vault = w.vault → w'.paid = w.paid → Accounted types w' := by
    intro hvault hpaid
    refine ⟨hpaid ▸ ha.nodup, fun hburn => ?_, fun hburn => ?_, fun {T} hname => ?_⟩
    · exact burnsOf_subset (fun _ => hlater.mem) (ha.logged (hpaid ▸ hburn))
    · obtain ⟨T, hname, hspelled, hkey⟩ := ha.processed (hpaid ▸ hburn)
      exact ⟨T, hname, (spelled_later hw'.sound hlater hspelled.listed).2 hspelled,
        hvault ▸ hkey⟩
    · rw [ha.paidOf_later hw hw' hlater hpaid, hvault]
      exact ha.locked hname
  obtain ⟨hvault, hpaid⟩ | ⟨T, amount, recipientL2, -, hd, hchain, hpaid⟩ |
    ⟨relayer, latest, burn, rest, coin, T, recipient, moved, hp, hphase, hcoin, hparse, hd,
      hchain, hpaid⟩ := vault_cases hw h
  · exact hkeep hvault hpaid
  · exact ha.deposit hw hw' hchain hpaid hd
  · obtain ⟨hlogged, hname, hspelled⟩ := releasing_spelled hw hs ht hp hphase hcoin hparse
    rcases Vault.doWithdraw_cases hd with ⟨-, hr⟩ | ⟨hfree, -, hle, hr⟩
    · obtain ⟨hvault, rfl⟩ := Prod.mk.inj hr
      exact hkeep hvault hpaid
    · obtain ⟨hvault, rfl⟩ := Prod.mk.inj hr
      exact ha.release hw hlogged hname hspelled hfree hle hchain hvault hpaid

theorem start_accounted (h : Start R w) : Accounted types w := by
  obtain ⟨hR, id, predeploy, rfl⟩ := h
  exact ⟨.nil, fun h => (List.not_mem_nil h).elim, fun h => (List.not_mem_nil h).elim,
    fun _ => rfl⟩

theorem reachable_accounted (h : Reachable (Start R) (enabled (exec types R)) w) :
    Accounted types w :=
  h.inv_of (J := fun w => Base types R w ∧ Sourced w ∧ Traced types w)
    (fun _ hr => ⟨reachable_base hr, reachable_sourced hr, reachable_traced hr⟩)
    (fun _ => start_accounted)
    fun _ _ _ hj hj' ha hstep => ha.effect hj.1 hj'.1 hj.2.1 hj.2.2 (exec_effect hstep)

/-! ## The supply -/

def supplyOf (chain : Chain) (token : EvmAddress) : Nat :=
  (chain.contracts.bridges token).elim 0 Bridge.totalSupply

/-- What the logs burn of `T` and was not paid out. -/
def unreleased (types : CoinTypeSyntax) (w : BridgeWorld) (T : CoinType) : Nat :=
  ((w.chain.logs.filter fun log => !(Burn.ofLog log).any fun burn => burn ∈ w.paid).map
    (burntOn (tokensOf types w.chain T))).sum

/-- Every deposit is minted at most once, the cursors pass minted deposits only, and the vault
holds what the L2 tokens are worth. -/
structure Backed (types : CoinTypeSyntax) (w : BridgeWorld) : Prop where
  once : ∀ {token token' n amount amount'}, w.chain.Listed token → w.chain.Listed token' →
    (n, amount) ∈ Bridge.mintsIn (w.chain.eventsOf token) →
      (n, amount') ∈ Bridge.mintsIn (w.chain.eventsOf token') → token = token'
  distinct : ∀ {token}, w.chain.Listed token →
    ((Bridge.mintsIn (w.chain.eventsOf token)).map Prod.fst).Nodup
  passed : ∀ {c}, w.Holds c → ∀ n < c.nextDepositNonce, ∃ record token,
    w.vault.deposits n = some record ∧ Spelled types w.chain record.coinType token ∧
      (n, record.amount) ∈ Bridge.mintsIn (w.chain.eventsOf token)
  covered : ∀ {T}, types.isName T →
    ∑ token ∈ tokensOf types w.chain T, supplyOf w.chain token + unreleased types w T ≤
      w.vault.reserve T

/-- A mint of a listed token is that of the deposit with its nonce. -/
theorem Traced.mint (hs : Sourced w) (ht : Traced types w) (hl : w.chain.Listed token)
    (hm : (n, amount) ∈ Bridge.mintsIn (w.chain.eventsOf token)) :
    ∃ record, Due types w n record token ∧ record.amount = amount := by
  obtain ⟨i, recipient, receipt, htx, -, -⟩ := hs _ _ _ hl hm
  exact (ht.sent (List.mem_of_getElem? htx)).1

/-- No deposit is minted on two listed tokens. -/
def MintedOnce (w : BridgeWorld) : Prop := ∀ token token' n amount amount',
  w.chain.Listed token → w.chain.Listed token' →
    (n, amount) ∈ Bridge.mintsIn (w.chain.eventsOf token) →
      (n, amount') ∈ Bridge.mintsIn (w.chain.eventsOf token') → token = token'

theorem MintedOnce.before (h : MintedOnce w') (hl : w.chain.Later w'.chain) : MintedOnce w :=
  fun _ _ _ _ _ hlisted hlisted' hm hm' => h _ _ _ _ _ (hl.listed hlisted) (hl.listed hlisted')
    (hl.mints hm) (hl.mints hm')

theorem Single.once (hs : Sourced w) (hsingle : Single w) : MintedOnce w := by
  intro token token' n amount amount' hl hl' hm hm'
  obtain ⟨i, recipient, receipt, htx, hr, hsuccess⟩ := hs _ _ _ hl hm
  obtain ⟨j, recipient', receipt', htx', hr', hsuccess'⟩ := hs _ _ _ hl' hm'
  by_contra hne
  rcases hsingle _ _ _ _ _ _ _ _ _ htx htx' hne with ⟨failed, hf, hfail⟩ | ⟨failed, hf, hfail⟩
  · rw [hr] at hf
    cases hf
    rw [hsuccess] at hfail
    cases hfail
  · rw [hr'] at hf
    cases hf
    rw [hsuccess'] at hfail
    cases hfail

/-- The books of a listed token. -/
theorem listed_accounts (hw : Base types R w) (hl : w.chain.Listed token) :
    supplyOf w.chain token + ((Bridge.burnsIn (w.chain.eventsOf token)).map Prod.snd).sum =
      ((Bridge.mintsIn (w.chain.eventsOf token)).map Prod.snd).sum ∧
    ((Bridge.mintsIn (w.chain.eventsOf token)).map Prod.fst).Nodup := by
  obtain ⟨hne, s, hfor⟩ := hl
  obtain ⟨bridge, hb, -⟩ := hw.sound.wellFormed.listed (hfor.trans_ne hne)
  rw [hfor] at hb
  have haccounts := hw.sound.accounts hb
  rw [supplyOf, hb]
  exact ⟨haccounts.supply, haccounts.ordered.imp Nat.ne_of_lt⟩

/-- Paid burns and unreleased ones are all burns. -/
theorem unreleased_add_paidOf_le (ha : Accounted types w) :
    unreleased types w T + paidOf types w T ≤
      ∑ token ∈ tokensOf types w.chain T,
        ((Bridge.burnsIn (w.chain.eventsOf token)).map Prod.snd).sum := by
  let isPaid : Nat × Log → Bool := fun log => (Burn.ofLog log).any fun burn => burn ∈ w.paid
  have hpaid : paidOf types w T ≤
      ((w.chain.logs.filter isPaid).map (burntOn (tokensOf types w.chain T))).sum := by
    refine le_trans ?_ (sum_burnsOf_le _ _)
    have hnodup : (w.paid.filter fun burn => burn.token ∈ tokensOf types w.chain T).Nodup :=
      ha.nodup.filter _
    have hsub : (w.paid.filter fun burn => burn.token ∈ tokensOf types w.chain T) ⊆
        (burnsOf (w.chain.logs.filter isPaid)).filter
          fun burn => burn.token ∈ tokensOf types w.chain T := by
      intro burn hburn
      obtain ⟨hmem, htoken⟩ := List.mem_filter.1 hburn
      obtain ⟨log, hlog, hofLog⟩ := List.mem_filterMap.1 (ha.logged hmem)
      refine List.mem_filter.2 ⟨List.mem_filterMap.2 ⟨log, ?_, hofLog⟩, htoken⟩
      exact List.mem_filter.2 ⟨hlog, by simp [isPaid, hofLog, hmem]⟩
    obtain ⟨l, hperm, hsublist⟩ := hnodup.subperm hsub
    calc paidOf types w T = (l.map Burn.amount).sum := (hperm.map _).sum_eq.symm
      _ ≤ _ := (hsublist.map _).sum_le_sum fun _ _ => Nat.zero_le _
  have hsplit := ((List.filter_append_perm isPaid w.chain.logs).map
    (burntOn (tokensOf types w.chain T))).sum_eq
  rw [List.map_append, List.sum_append] at hsplit
  have hburns := sum_burnsIn (tokensOf types w.chain T) w.chain.logs
  change ∑ token ∈ _, ((Bridge.burnsIn (w.chain.eventsOf token)).map Prod.snd).sum = _ at hburns
  have hunreleased : unreleased types w T = ((w.chain.logs.filter fun log => !isPaid log).map
    (burntOn (tokensOf types w.chain T))).sum := rfl
  rw [hburns, ← hsplit, hunreleased]
  omega

/-- The mints of the tokens of `T` are covered by its deposits. -/
theorem mints_le_deposits (hw : Base types R w) (hs : Sourced w) (ht : Traced types w)
    (honce : MintedOnce w) (hname : types.isName T) :
    ∑ token ∈ tokensOf types w.chain T,
      ((Bridge.mintsIn (w.chain.eventsOf token)).map Prod.snd).sum ≤
        ∑ n ∈ Finset.range w.vault.depositNonce, depositedOf w.vault T n := by
  have hspelled : ∀ token ∈ tokensOf types w.chain T, Spelled types w.chain T token :=
    fun token hmem => (mem_tokensOf hw.sound).1 hmem
  refine sum_claims_le (fun token hmem => ?_) (fun token hmem token' hmem' n hn hn' => ?_)
    fun token hmem p hp => ?_
  · exact (listed_accounts hw (hspelled token hmem).listed).2
  · obtain ⟨⟨m, amount⟩, hm, rfl⟩ := List.mem_map.1 hn
    obtain ⟨⟨m', amount'⟩, hm', heq⟩ := List.mem_map.1 hn'
    cases heq
    exact honce _ _ _ _ _ (hspelled token hmem).listed (hspelled token' hmem').listed hm hm'
  · obtain ⟨record, ⟨hfiled, hknown⟩, hamount⟩ := ht.mint hs (hspelled token hmem).listed hp
    have hname' := hw.named hfiled
    have hcoin : record.coinType = T :=
      (hknown.spelled hname').inj hw.sound hname' hname (hspelled token hmem)
    refine ⟨(hw.filed.dense p.1).1 (by simp [hfiled]), ?_⟩
    rw [depositedOf, hfiled]
    simp only [hcoin, if_true]
    exact hamount.symm

/-- In a run whose mints are sent only once those of the same deposit on other tokens have
failed, the L2 supply is backed. -/
theorem supply_backed
    (h : Reachable (Start R) (guarded OneToken (enabled (exec types R))) w) :
    Backed types w := by
  have hw := reachable_base h.of_guarded
  have hs := reachable_sourced h.of_guarded
  have ht := reachable_traced h.of_guarded
  have ha := reachable_accounted h.of_guarded
  have honce : MintedOnce w := (reachable_single h).once hs
  refine ⟨honce _ _ _ _ _, fun hl => (listed_accounts hw hl).2, fun hc n hn => ?_,
    fun {T} hname => ?_⟩
  · obtain ⟨token, amount, hl, hm⟩ := ht.cursors hc n hn
    obtain ⟨record, ⟨hfiled, hknown⟩, rfl⟩ := ht.mint hs hl hm
    exact ⟨record, token, hfiled, hknown.spelled (hw.named hfiled), hm⟩
  · have hbooks : ∑ token ∈ tokensOf types w.chain T, supplyOf w.chain token +
        ∑ token ∈ tokensOf types w.chain T,
          ((Bridge.burnsIn (w.chain.eventsOf token)).map Prod.snd).sum =
        ∑ token ∈ tokensOf types w.chain T,
          ((Bridge.mintsIn (w.chain.eventsOf token)).map Prod.snd).sum := by
      rw [← Finset.sum_add_distrib]
      refine Finset.sum_congr rfl fun token hmem => ?_
      exact (listed_accounts hw ((mem_tokensOf hw.sound).1 hmem).listed).1
    have hmints := mints_le_deposits hw hs ht honce hname
    have hburns := unreleased_add_paidOf_le (T := T) ha
    have hlocked := ha.locked hname
    omega

/-! ## Runs -/

/-- A check of the condition, on all mints of the deposit that were sent. -/
def checkOneToken (w : BridgeWorld) (a : Action) : Bool :=
  match a, w.process with
  | .relay _ _, .running ⟨cursors, _, .minting _ _ token⟩ => w.sent.all fun tx =>
      match tx with
      | .mint token' _ _ n => n ≠ cursors.nextDepositNonce || token' = token
      | .createBridge _ _ _ => true
  | _, _ => true

theorem oneToken_of_check (h : checkOneToken w a) : OneToken w a := by
  cases a with
  | relay rpc disk =>
    intro relayer latest record token hp hphase i token' recipient amount htx hne
    obtain ⟨cursors, tokens, phase⟩ := relayer
    dsimp only at hphase
    subst hphase
    simp only [checkOneToken, hp, List.all_eq_true] at h
    have hsame := h _ (List.mem_of_getElem? htx)
    simp [hne] at hsame
  | _ => trivial

/-- The deposit is minted, part of it is burnt, and the burn is released. -/
theorem supply_backed_first : Backed (.single suiName suiShort) (bridgeAfter serveFirst) := by
  have hrun : Run (guarded OneToken (enabled (exec (.single suiName suiShort) (.repeated 1))))
      (fresh (.repeated 1) 0 (.repeated 9)) serveFirst (bridgeAfter serveFirst) :=
    run_of_check (fun _ _ => oneToken_of_check) rfl
  have hstart : Start (.repeated 1) (fresh (.repeated 1) 0 (.repeated 9)) :=
    ⟨by decide, 0, .repeated 9, rfl⟩
  exact supply_backed ⟨_, _, hstart, hrun⟩

/-- A deposit is relayed while a twin of its token exists. After a restart without the file the
registry has the twin, and the deposit is minted on it again. -/
def mintTwice : List Action :=
  firstRelay [.outside (.repeated 8) (.repeated 2) (.createBridge [] [] suiShort)] ++
    [.relay .ok .written, .relay .ok .written, .relay .ok .written,
      .mine [.relayed 1 (.repeated 4)], .relay .ok .written] ++ restartWithoutFile ++
    [.relayDeposits .ok, .relay .ok .written, .relay .ok .written, .relay .ok .written,
      .relay .ok .written, .mine [.relayed 2 (.repeated 5)]]

/-- The same deposit is minted on the relayer's own token and on its twin. -/
theorem deposit_minted_twice : ¬ ∀ (types : CoinTypeSyntax) (R : EvmAddress) (w : BridgeWorld),
    Reachable (Start R) (enabled (exec types R)) w → Backed types w := by
  intro hclaim
  have hrun : Run (enabled (exec (.single suiName suiShort) (.repeated 1)))
      (fresh (.repeated 1) 0 (.repeated 9)) mintTwice (bridgeAfter mintTwice) :=
    run_of_execAll rfl
  have hstart : Start (.repeated 1) (fresh (.repeated 1) 0 (.repeated 9)) :=
    ⟨by decide, 0, .repeated 9, rfl⟩
  have hbacked := hclaim _ _ _ ⟨_, _, hstart, hrun⟩
  have hown : (0, 5) ∈ Bridge.mintsIn
      ((bridgeAfter mintTwice).chain.eventsOf (.repeated 3)) := by decide
  have htwin : (0, 5) ∈ Bridge.mintsIn
      ((bridgeAfter mintTwice).chain.eventsOf (.repeated 2)) := by decide
  have hsame := hbacked.once ⟨by decide, suiName, rfl⟩ ⟨by decide, suiShort, rfl⟩ hown htwin
  exact absurd hsame (by decide)

end BridgeWorld

end Podseq.Node
