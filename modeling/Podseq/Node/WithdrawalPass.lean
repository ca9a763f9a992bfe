import Podseq.Node.BackedSupply

/-! # A withdrawal pass that is answered

The burns of a range are released one after the other, and one whose call aborts would hold up all
that are behind it. None does: what a burn is worth is in the vault until it is paid out. A pass
whose requests are answered comes to its end, whatever is deposited and mined meanwhile.
-/
namespace Podseq.Node
open Podseq.Lib Podseq.Move Podseq.Solidity

/-! ## A withdrawal that goes through -/

theorem doWithdraw_goes {vault : Vault} {T : CoinType} (recipient : Address)
    {amount l2Nonce : Nat} (hroom : vault.withdrawNonce < u64Max)
    (h : vault.processedWithdrawals (Vault.withdrawKey T l2Nonce) = none →
      0 < amount ∧ amount ≤ vault.reserve T) :
    ∃ vault' moved, vault.doWithdraw T recipient amount l2Nonce = .ok (vault', moved) ∧
      vault'.withdrawNonce ≤ vault.withdrawNonce + 1 := by
  cases hkey : vault.processedWithdrawals (Vault.withdrawKey T l2Nonce) with
  | some u =>
    refine ⟨vault, false, ?_, Nat.le_succ _⟩
    simp [Vault.doWithdraw, Table.contains, hkey]
  | none =>
    obtain ⟨hpos, hle⟩ := h hkey
    cases hheld : vault.reserves (Vault.typeKey T) with
    | none =>
      simp only [Vault.reserve, hheld, Option.getD_none] at hle
      omega
    | some held =>
      simp only [Vault.reserve, hheld, Option.getD_some] at hle
      have hfree : vault.processedWithdrawals.contains (Vault.withdrawKey T l2Nonce) = false := by
        rw [Table.contains, hkey]
        rfl
      simp only [Vault.doWithdraw, hfree, Bool.false_eq_true, if_false, bind_eq_ok,
        Table.add_eq_ok, require_eq_ok, exists_const, hheld, addU64_eq_ok, pure_eq_ok]
      exact ⟨_, _, ⟨_, ⟨hkey, rfl⟩, hpos, hle, _, ⟨hroom, rfl⟩, rfl⟩, Nat.le_refl _⟩

namespace BridgeWorld

variable {types : CoinTypeSyntax} {R : EvmAddress} {w w' : BridgeWorld} {a : Action}
  {relayer : Relayer} {burn : Burn} {T : CoinType}

/-! ## What a burn is worth -/

/-- A reserve is a balance of 64 bits. -/
theorem reachable_reserve (h : Reachable (Start R) (enabled (exec types R)) w) :
    ∀ T, w.vault.reserve T ≤ u64Max := by
  refine h.inv_of (I := fun w => ∀ T, w.vault.reserve T ≤ u64Max)
    (J := fun w => Base types R w) (fun _ hr => reachable_base hr) ?_ ?_
  · intro w hw T
    obtain ⟨-, id, predeploy, rfl⟩ := hw
    exact Nat.zero_le _
  · intro w a w' hw hw' hI hs T
    obtain ⟨hvault, -⟩ | ⟨T', amount, recipientL2, -, hd, -, -⟩ |
      ⟨_, _, burn, _, _, T', _, moved, -, -, -, -, hd, -, -⟩ := vault_cases hw (exec_effect hs)
    · rw [hvault]
      exact hI T
    · have hfiled : w'.vault.deposits w.vault.depositNonce = some _ :=
        (Vault.deposits_deposit hd _).trans (if_pos rfl)
      have hamount := (hw'.filed.amount hfiled).2
      obtain ⟨-, -, -, hsum, -, hvault⟩ := Vault.deposit_cases hd
      have hreserve : w'.vault.reserve T =
          if T = T' then w.vault.reserve T' + amount else w.vault.reserve T := by
        rw [hvault]
        exact VaultLedger.reserve_update
      have hold := hI T
      dsimp only at hamount
      rw [hreserve]
      split <;> omega
    · rcases Vault.doWithdraw_cases hd with ⟨-, hr⟩ | ⟨-, -, -, hr⟩
      · obtain ⟨hvault, -⟩ := Prod.mk.inj hr
        rw [hvault]
        exact hI T
      · obtain ⟨hvault, -⟩ := Prod.mk.inj hr
        have hreserve : w'.vault.reserve T =
            if T = T' then w.vault.reserve T' - burn.amount else w.vault.reserve T := by
          rw [hvault]
          exact VaultLedger.reserve_update
        have hold := hI T
        have hold' := hI T'
        rw [hreserve]
        split <;> omega

/-- What is burnt and not paid out is in the vault. -/
theorem unreleased_le_reserve (hw : Base types R w) (hs : Sourced w) (ht : Traced types w)
    (ha : Accounted types w) (honce : MintedOnce w) (hname : types.isName T) :
    unreleased types w T ≤ w.vault.reserve T := by
  have hburns := unreleased_add_paidOf_le (T := T) ha
  have hmints := mints_le_deposits hw hs ht honce hname
  have hlocked := ha.locked hname
  have hburnt : ∑ token ∈ tokensOf types w.chain T,
      ((Bridge.burnsIn (w.chain.eventsOf token)).map Prod.snd).sum ≤
        ∑ token ∈ tokensOf types w.chain T,
          ((Bridge.mintsIn (w.chain.eventsOf token)).map Prod.snd).sum := by
    refine Finset.sum_le_sum fun token hmem => ?_
    have haccounts := (listed_accounts hw ((mem_tokensOf hw.sound).1 hmem).listed).1
    omega
  omega

/-- A burn that was not paid out can be. -/
theorem payable (hw : Base types R w) (hs : Sourced w) (ht : Traced types w)
    (ha : Accounted types w) (honce : MintedOnce w) (hreserve : ∀ T, w.vault.reserve T ≤ u64Max)
    (hname : types.isName T) (hspelled : Spelled types w.chain T burn.token)
    (hlogged : burn ∈ burnsOf w.chain.logs)
    (hfree : w.vault.processedWithdrawals (Vault.withdrawKey T burn.nonce) = none) :
    0 < burn.amount ∧ burn.amount ≤ w.vault.reserve T := by
  have hunpaid : burn ∉ w.paid := by
    intro hpaid
    obtain ⟨T', hname', hspelled', hkey⟩ := ha.processed hpaid
    obtain rfl := hspelled.inj hw.sound hname hname' hspelled'
    exact hkey hfree
  obtain ⟨log, hlog, hofLog⟩ := List.mem_filterMap.1 hlogged
  have hle : burntOn (tokensOf types w.chain T) log ≤ w.vault.reserve T := by
    refine le_trans (List.single_le_sum (fun _ _ => Nat.zero_le _) _ (List.mem_map_of_mem ?_))
      (unreleased_le_reserve hw hs ht ha honce hname)
    exact List.mem_filter.2 ⟨hlog, by simp [hofLog, hunpaid]⟩
  obtain ⟨block, _ | ⟨token, event⟩⟩ := log
  · cases hofLog
  · cases event with
    | withdrawalInitiated nonce sender recipient amount =>
      cases hofLog
      have hmem : token ∈ tokensOf types w.chain T := (mem_tokensOf hw.sound).2 hspelled
      have hfull : amount ≤ w.vault.reserve T := by
        rwa [burntOn, if_pos hmem] at hle
      have hevent : .withdrawalInitiated nonce sender recipient amount ∈
          w.chain.eventsOf token := List.mem_filterMap.2 ⟨_, hlog, if_pos rfl⟩
      have hburn : (nonce, amount) ∈ Bridge.burnsIn (w.chain.eventsOf token) :=
        List.mem_filterMap.2 ⟨_, hevent, rfl⟩
      obtain ⟨hne, s, hfor⟩ := hspelled.listed
      obtain ⟨bridge, hb, -⟩ := hw.sound.wellFormed.listed (hfor.trans_ne hne)
      rw [hfor] at hb
      have hpos := (hw.sound.accounts hb).burnAmounts _ hburn
      -- the low 64 bits are the whole amount
      have hmod : amount % 2 ^ 64 = amount :=
        Nat.mod_eq_of_lt (Nat.lt_succ_of_le (hfull.trans (hreserve T)))
      rw [hmod]
      exact ⟨hpos, hfull⟩
    | _ => cases hofLog

/-! ## One release -/

def ParsesNames (types : CoinTypeSyntax) : Prop :=
  ∀ T, types.isName T → ∃ T', types.parse T = some T'

/-- The coin type that the registry has for a token with burns is the name of a type. -/
theorem releasing_named (hw : Base types R w) (hs : Sourced w) (ht : Traced types w)
    (hp : w.process = .running relayer) {latest : Nat} {rest : List Burn} {coin : Bytes}
    (hphase : relayer.phase = .releasing latest (burn :: rest))
    (hcoin : relayer.tokens.coinFor burn.token = some coin) : types.isName coin := by
  obtain ⟨hregistered, hinformed⟩ := ht.running hp
  rw [Informed, hphase] at hinformed
  have hknown := hregistered.known ((hregistered.paired _ _).1 hcoin)
  -- what is burnt was minted before, for a deposit of the coin type
  have hmints : Bridge.mintsIn (w.chain.eventsOf burn.token) ≠ [] := by
    intro hnil
    obtain ⟨hne, s, hfor⟩ := hknown.listed
    obtain ⟨bridge, hb, -⟩ := hw.sound.wellFormed.listed (hfor.trans_ne hne)
    rw [hfor] at hb
    have haccounts := hw.sound.accounts hb
    have hnone : bridge.mintedAny = false :=
      Bool.eq_false_iff.2 fun hany => haccounts.mintedAny.1 hany hnil
    exact burnsIn_ne_nil (hinformed burn List.mem_cons_self) (haccounts.unburned hnone)
  obtain ⟨⟨n, amount⟩, hmint⟩ := List.exists_mem_of_ne_nil _ hmints
  obtain ⟨record, ⟨hfiled, hdue⟩, -⟩ := ht.mint hs hknown.listed hmint
  obtain rfl := hknown.inj hw.sound hdue
  exact hw.named hfiled

/-- The call for a burn goes through. -/
theorem release_goes (hparses : ParsesNames types) {latest : Nat} {rest : List Burn}
    {coin : Bytes} (h : Reachable (Start R) (enabled (exec types R)) w) (honce : MintedOnce w)
    (hroom : w.vault.withdrawNonce < u64Max) (hp : w.process = .running relayer)
    (hphase : relayer.phase = .releasing latest (burn :: rest))
    (hcoin : relayer.tokens.coinFor burn.token = some coin) :
    ∃ vault paid, release types w relayer latest burn rest .ok =
      { w with vault, paid, served := (coin, burn) :: w.served }.run
        { relayer with phase := .releasing latest rest } ∧
      vault.withdrawNonce ≤ w.vault.withdrawNonce + 1 := by
  have hw := reachable_base h
  have hs := reachable_sourced h
  have ht := reachable_traced h
  obtain ⟨T, hparse⟩ := hparses coin (releasing_named hw hs ht hp hphase hcoin)
  obtain ⟨hlogged, hname, hspelled⟩ := releasing_spelled hw hs ht hp hphase hcoin hparse
  obtain ⟨vault, moved, hok, hnonce⟩ := doWithdraw_goes
    (burn.suiRecipient.val.foldl (fun n b => 256 * n + b.toNat) 0) hroom
    (payable hw hs ht (reachable_accounted h) honce (reachable_reserve h) hname hspelled hlogged)
  refine ⟨vault, if moved then burn :: w.paid else w.paid, ?_, hnonce⟩
  simp only [release, hcoin, hparse, hok]

/-! ## The pass -/

/-- The requests of the task are answered; deposits and blocks come in between. -/
def Answered (_ : BridgeWorld) : Action → Prop
  | .relay rpc _ => rpc = .ok
  | .deposit _ _ _ => True
  | .mine _ => True
  | _ => False

def isRequest : Action → Bool
  | .relay _ _ => true
  | _ => false

def burnsFrom (w : BridgeWorld) (lo latest : Nat) : List Burn := burnsOf (w.chain.logsIn lo latest)

/-- The burns in the range of the registered tokens are released, but for those in `burns`. -/
def ServedBut (w : BridgeWorld) (tokens : TokenRegistry) (lo latest : Nat) (burns : List Burn) :
    Prop :=
  ∀ burn ∈ w.burnsFrom lo latest, burn.token ∈ tokens.addresses → w.Served burn ∨ burn ∈ burns

/-- The vault can count `n` more withdrawals. -/
def Room (w : BridgeWorld) (n : Nat) : Prop := w.vault.withdrawNonce + n ≤ u64Max

instance (w : BridgeWorld) (n : Nat) : Decidable (w.Room n) := inferInstanceAs (Decidable (_ ≤ _))

/-- A pass over the blocks from `lo` to `latest` has at most `n` requests to go, and the vault has
room for its withdrawals. -/
inductive Passing (lo latest : Nat) (w : BridgeWorld) (n : Nat) : Prop
  | absorbing {relayer : Relayer} (hp : w.process = .running relayer)
      (hphase : relayer.phase = .absorbing latest) (hlo : relayer.cursors.nextL2Block = lo)
      (hn : (w.burnsFrom lo latest).length + 3 ≤ n)
      (hroom : w.Room (w.burnsFrom lo latest).length)
  | fetching {relayer : Relayer} (hp : w.process = .running relayer)
      (hphase : relayer.phase = .fetching latest) (hlo : relayer.cursors.nextL2Block = lo)
      (hn : (w.burnsFrom lo latest).length + 2 ≤ n)
      (hroom : w.Room (w.burnsFrom lo latest).length)
  | releasing {relayer : Relayer} {burns : List Burn} (hp : w.process = .running relayer)
      (hphase : relayer.phase = .releasing latest burns)
      (hknown : ∀ burn ∈ burns, burn.token ∈ relayer.tokens.addresses)
      (hserved : w.ServedBut relayer.tokens lo latest burns) (hn : burns.length + 1 ≤ n)
      (hroom : w.Room burns.length)
  | done {relayer : Relayer} (hp : w.process = .running relayer) (hphase : relayer.phase = .idle)
      (hnext : relayer.cursors.nextL2Block = latest + 1)
      (hserved : w.ServedBut relayer.tokens lo latest [])

variable {lo latest n : Nat} {disk : Disk}

theorem coinFor_of_mem {tokens : TokenRegistry} {token : EvmAddress}
    (h : token ∈ tokens.addresses) : ∃ coin, tokens.coinFor token = some coin := by
  rw [TokenRegistry.addresses, Std.TreeMap.mem_keys, Std.TreeMap.mem_iff_isSome_getElem?] at h
  exact Option.isSome_iff_exists.1 h

/-- A range of blocks that are there is not changed any more. -/
theorem logsIn_later {chain chain' : Chain} (hl : chain.Later chain') (hle : latest ≤ chain.head) :
    chain'.logsIn lo latest = chain.logsIn lo latest := by
  obtain ⟨new, hnew, hblock⟩ := hl.logs
  rw [Chain.logsIn, hnew, List.filter_append, Chain.logsIn]
  refine (congrArg _ (List.filter_eq_nil_iff.2 fun log hlog => ?_)).trans (List.append_nil _)
  have hlt := hblock log hlog
  rw [decide_eq_true_eq]
  omega

theorem ServedBut.congr {tokens : TokenRegistry} {burns : List Burn}
    (h : w.ServedBut tokens lo latest burns) (hserved : w'.served = w.served)
    (hlogs : w'.chain.logsIn lo latest = w.chain.logsIn lo latest) :
    w'.ServedBut tokens lo latest burns := by
  intro burn hburn htoken
  rw [burnsFrom, hlogs] at hburn
  rw [Served, hserved]
  exact h burn hburn htoken

/-- What is deposited and mined meanwhile does not concern the pass. -/
theorem Passing.congr (h : Passing lo latest w n) (hprocess : w'.process = w.process)
    (hserved : w'.served = w.served) (hnonce : w'.vault.withdrawNonce = w.vault.withdrawNonce)
    (hlogs : w'.chain.logsIn lo latest = w.chain.logsIn lo latest) : Passing lo latest w' n := by
  have hburns : w'.burnsFrom lo latest = w.burnsFrom lo latest := congrArg burnsOf hlogs
  have hroomed : ∀ {k}, w.Room k → w'.Room k := fun hroom => by rwa [Room, hnonce]
  cases h with
  | absorbing hp hphase hlo hn hroom =>
    exact .absorbing (hprocess.trans hp) hphase hlo (hburns ▸ hn) (hburns ▸ hroomed hroom)
  | fetching hp hphase hlo hn hroom =>
    exact .fetching (hprocess.trans hp) hphase hlo (hburns ▸ hn) (hburns ▸ hroomed hroom)
  | releasing hp hphase hknown hrest hn hroom =>
    exact .releasing (hprocess.trans hp) hphase hknown (hrest.congr hserved hlogs) hn
      (hroomed hroom)
  | done hp hphase hnext hrest =>
    exact .done (hprocess.trans hp) hphase hnext (hrest.congr hserved hlogs)

/-- The pass ends, and its cursor is behind the range. -/
theorem Passing.finish (hrest : w.ServedBut relayer.tokens lo latest []) :
    Passing lo latest (w.finish relayer latest disk) n := by
  refine .done rfl rfl rfl ?_
  refine hrest.congr ?_ ?_
  · exact served_persist
  · exact congrArg (Chain.logsIn · lo latest) persist_chain

/-- A request that is answered brings the pass one step further. -/
theorem Passing.request (hparses : ParsesNames types)
    (h : Reachable (Start R) (enabled (exec types R)) w) (honce : MintedOnce w)
    (hpass : Passing lo latest w n) (hs : enabled (exec types R) w (.relay .ok disk) w') :
    Passing lo latest w' (n - 1) := by
  cases hpass with
  | @absorbing relayer hp hphase hlo hn hroom =>
    simp only [enabled, exec, hp, relay, hphase, Option.some.injEq] at hs
    subst hs
    refine .fetching rfl rfl hlo ?_ hroom
    exact Nat.le_sub_of_add_le hn
  | @fetching relayer hp hphase hlo hn hroom =>
    simp only [enabled, exec, hp, relay, hphase, Option.some.injEq] at hs
    split at hs
    · rename_i hempty
      subst hs
      refine .finish fun burn _ htoken => ?_
      rw [List.isEmpty_iff.1 hempty] at htoken
      cases htoken
    · subst hs
      have hle := List.length_filter_le (fun burn : Burn => decide (burn.token ∈
        relayer.tokens.addresses)) (w.burnsFrom lo latest)
      refine .releasing rfl rfl (fun burn hburn => ?_) (fun burn hburn htoken => ?_) ?_ ?_
      · exact of_decide_eq_true (List.mem_filter.1 hburn).2
      · refine .inr (List.mem_filter.2 ⟨?_, decide_eq_true htoken⟩)
        rw [hlo]
        exact hburn
      · rw [hlo]
        exact Nat.le_sub_of_add_le ((Nat.add_le_add_right hle 2).trans hn)
      · rw [hlo]
        exact (Nat.add_le_add_left hle _).trans hroom
  -- the burns in hand are of known tokens, so the next release goes through
  | @releasing relayer burns hp hphase hknown hrest hn hroom =>
    cases burns with
    | nil =>
      simp only [enabled, exec, hp, relay, hphase, Option.some.injEq] at hs
      subst hs
      exact .finish hrest
    | cons burn burns =>
      obtain ⟨coin, hcoin⟩ := coinFor_of_mem (hknown burn List.mem_cons_self)
      rw [Room, List.length_cons] at hroom
      obtain ⟨vault, paid, hgoes, hnonce⟩ :=
        release_goes hparses h honce (by omega) hp hphase hcoin
      simp only [enabled, exec, hp, relay, hphase, hgoes, Option.some.injEq] at hs
      subst hs
      refine .releasing rfl rfl (fun b hb => hknown b (List.mem_cons_of_mem _ hb))
        (fun b hb htoken => ?_) (Nat.le_sub_of_add_le hn) ?_
      · rcases hrest b hb htoken with ⟨c, hserved⟩ | hmem
        · exact .inl ⟨c, List.mem_cons_of_mem _ hserved⟩
        · rcases List.mem_cons.1 hmem with rfl | hmem
          · exact .inl ⟨coin, List.mem_cons_self⟩
          · exact .inr hmem
      · change vault.withdrawNonce + burns.length ≤ u64Max
        omega
  | @done relayer hp hphase hnext hrest =>
    simp only [enabled, exec, hp, relay, hphase, Option.some.injEq] at hs
    subst hs
    exact .done hp hphase hnext hrest

theorem Passing.step (hparses : ParsesNames types)
    (h : Reachable (Start R) (enabled (exec types R)) w) (honce : MintedOnce w)
    (hhead : latest ≤ w.chain.head) (hpass : Passing lo latest w n)
    (hs : guarded Answered (enabled (exec types R)) w a w') :
    Passing lo latest w' (n - (if isRequest a then 1 else 0)) := by
  obtain ⟨hanswered, hs⟩ := hs
  have hw := reachable_base h
  have hlogs : w'.chain.logsIn lo latest = w.chain.logsIn lo latest :=
    logsIn_later (grows_effect hw (exec_effect hs)).later hhead
  cases a with
  | relay rpc disk =>
    cases hanswered
    exact hpass.request hparses h honce hs
  | deposit T amount recipientL2 =>
    simp only [enabled, exec, Option.ite_none_right_eq_some, Option.map_eq_some_iff] at hs
    obtain ⟨-, vault, hdeposit, rfl⟩ := hs
    obtain ⟨-, -, -, -, -, hvault⟩ := Vault.deposit_cases (toOption_eq_some.1 hdeposit)
    have hnonce : vault.withdrawNonce = w.vault.withdrawNonce := by rw [hvault]
    exact hpass.congr rfl rfl hnonce hlogs
  | mine txs =>
    simp only [enabled, exec, Option.map_eq_some_iff] at hs
    obtain ⟨u, hu, rfl⟩ := hs
    have hrest := (hw.mine (run_of_execAll hu)).2.rest
    refine hpass.congr ?_ ?_ ?_ hlogs
    · change u.process = w.process
      rw [hrest]
    · change u.served = w.served
      rw [hrest]
    · change u.vault.withdrawNonce = w.vault.withdrawNonce
      rw [hrest]
  | _ => exact absurd hanswered id

theorem Passing.run {as : List Action} (hparses : ParsesNames types)
    (hrun : Run (guarded Answered (enabled (exec types R))) w as w') (honce : MintedOnce w') :
    ∀ {n}, Reachable (Start R) (enabled (exec types R)) w → latest ≤ w.chain.head →
      Passing lo latest w n → Passing lo latest w' (n - as.countP isRequest) := by
  induction hrun with
  | nil => exact fun _ _ hpass => hpass
  | @cons w a w₁ as w' hs hrest ih =>
    intro n h hhead hpass
    have hlater := (grows_effect (reachable_base h) (exec_effect hs.2)).later
    have hall : Run (enabled (exec types R)) w (a :: as) w' :=
      .cons hs.2 (hrest.mono fun _ _ _ hs => hs.2)
    have hnext := ih honce (h.next hs.2) (hhead.trans hlater.head)
      (hpass.step hparses h (honce.before (later_run h hall)) hhead hs)
    rwa [Nat.sub_sub, Nat.add_comm, ← List.countP_cons] at hnext

end BridgeWorld

end Podseq.Node
