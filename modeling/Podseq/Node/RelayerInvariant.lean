import Podseq.Node.BridgeRelayer

/-! # What every run of the bridge keeps

Facts about the joint state that hold whatever the relayer decides: the chain is sound, the
receipts tell the truth about the sent transactions, and where the cursors in memory and on
disk come from.
-/
namespace Podseq.Node
open Podseq.Lib Podseq.Move Podseq.Solidity

namespace BridgeWorld

variable {types : CoinTypeSyntax} {R : EvmAddress} {w w' : BridgeWorld} {a : Action}
  {chain chain' : Chain} {receipt : Receipt} {tx : RelayTx} {rpc : Rpc}

/-- What a successful receipt proves about the chain. -/
def Confirms (chain : Chain) (receipt : Receipt) : RelayTx → Prop
  | .createBridge _ _ coinType => ∀ token, receipt.createdToken = some token →
    chain.contracts.factory.tokenFor coinType = token ∧ token ≠ .zero
  | .mint token _ amount nonce => (nonce, amount) ∈ Bridge.mintsIn (chain.eventsOf token)

theorem Confirms.later (h : Confirms chain receipt tx) (hl : chain.Later chain') :
    Confirms chain' receipt tx := by
  cases tx with
  | createBridge name symbol coinType =>
    intro token ht
    obtain ⟨hfor, hne⟩ := h token ht
    exact ⟨(hl.tokenFor (hfor.trans_ne hne)).trans hfor, hne⟩
  | mint token recipient amount nonce => exact hl.mints h

/-- The relayer's transactions leave the relayer role where it is. -/
theorem toCall_ordinary {contracts : Contracts} (tx : RelayTx) :
    Chain.Ordinary R contracts R tx.toCall := by
  cases tx with
  | createBridge name symbol coinType => exact .inl rfl
  | mint token recipient amount nonce => exact .inr ⟨⟨token, _, rfl⟩, trivial⟩

/-- The receipt of a relayed transaction. -/
theorem execute_confirms {created : EvmAddress}
    (h : (chain.execute R created tx.toCall).2.success) :
    Confirms (chain.execute R created tx.toCall).1 (chain.execute R created tx.toCall).2 tx := by
  obtain ⟨contracts, logs, he, hx⟩ | hx := chain.execute_cases R created tx.toCall
  · rw [hx]
    cases tx with
    | createBridge name symbol coinType =>
      obtain ⟨-, -, -, hne, -, -, hr⟩ := Contracts.createBridge_eq_ok.1 he
      cases hr
      intro token ht
      have htoken : some created = some token := ht
      cases htoken
      exact ⟨Contracts.setToken_self, hne⟩
    | mint token recipient amount nonce =>
      obtain ⟨b, b', events, -, hcall, hr⟩ := Contracts.callBridge_eq_ok.1 he
      obtain ⟨-, -, -, -, -, hb'⟩ := Bridge.mint_eq_ok.1 hcall
      cases hr
      cases hb'
      change (nonce, amount) ∈ Bridge.mintsIn (Chain.eventsOf (Chain.extend ..) token)
      rw [Chain.eventsOf_extend, Chain.eventOf_map_bridge, if_pos rfl, Bridge.mintsIn,
        List.filterMap_append]
      exact List.mem_append_right _ (List.mem_cons_self ..)
  · rw [hx] at h
    cases h

/-- The transaction behind each successful receipt did what it was sent for. -/
structure Base (types : CoinTypeSyntax) (R : EvmAddress) (w : BridgeWorld) : Prop where
  sound : w.chain.Sound R
  filed : w.vault.Filed
  named : ∀ {n record}, w.vault.deposits n = some record → types.isName record.coinType
  confirmed : ∀ {i receipt}, w.receipts i = some receipt → receipt.success →
    ∃ tx, w.sent[i]? = some tx ∧ Confirms w.chain receipt tx

theorem start_base (h : Start R w) : Base types R w := by
  obtain ⟨hR, id, predeploy, rfl⟩ := h
  exact ⟨Chain.genesis_sound hR predeploy, Vault.initializeVault_filed id, (nomatch ·),
    (nomatch ·)⟩

structure Mined (w w' : BridgeWorld) : Prop where
  later : w.chain.Later w'.chain
  rest : w' = { w with chain := w'.chain, receipts := w'.receipts }

theorem Mined.refl (w : BridgeWorld) : Mined w w := ⟨.refl _, rfl⟩

theorem Mined.trans {w'' : BridgeWorld} (h : Mined w w') (h' : Mined w' w'') : Mined w w'' := by
  refine ⟨h.later.trans h'.later, ?_⟩
  rw [h'.rest, h.rest]

theorem Base.includeTx {i : Inclusion} (hw : Base types R w) (h : includeTx R w i = some w') :
    Base types R w' ∧ Mined w w' := by
  cases i with
  | outside sender created call =>
    simp only [BridgeWorld.includeTx, Option.ite_none_right_eq_some, Option.some.injEq] at h
    obtain ⟨hp, rfl⟩ := h
    have ho : Chain.Ordinary R w.chain.contracts sender call := .inl hp
    have hl : w.chain.Later (w.chain.execute sender created call).1 :=
      Chain.execute_later hw.sound ho
    refine ⟨⟨hw.sound.execute ho.keeps, hw.filed, hw.named, fun hr hs => ?_⟩, hl, rfl⟩
    obtain ⟨tx, htx, hc⟩ := hw.confirmed hr hs
    exact ⟨tx, htx, hc.later hl⟩
  | relayed n created =>
    simp only [BridgeWorld.includeTx] at h
    split at h
    · rename_i tx htx hnone
      cases h
      have ho : Chain.Ordinary R w.chain.contracts R tx.toCall := toCall_ordinary tx
      have hl : w.chain.Later (w.chain.execute R created tx.toCall).1 :=
        Chain.execute_later hw.sound ho
      refine ⟨⟨hw.sound.execute ho.keeps, hw.filed, hw.named, fun {i receipt} hr hs => ?_⟩,
        hl, rfl⟩
      by_cases hi : i = n
      · subst hi
        simp only [Function.update_self, Option.some.injEq] at hr
        subst hr
        exact ⟨tx, htx, execute_confirms hs⟩
      · simp only [Function.update_of_ne hi] at hr
        obtain ⟨tx', htx', hc⟩ := hw.confirmed hr hs
        exact ⟨tx', htx', hc.later hl⟩
    · cases h

theorem Base.mine {txs : List Inclusion} (hw : Base types R w)
    (h : Run (enabled (BridgeWorld.includeTx R)) w txs w') : Base types R w' ∧ Mined w w' :=
  h.inv (I := fun u => Base types R u ∧ Mined w u)
    (fun _ _ _ hu hs => ⟨(hu.1.includeTx hs).1, hu.2.trans (hu.1.includeTx hs).2⟩)
    ⟨hw, .refl w⟩

/-- The facts of `Base` are about the vault, the chain and the relayed transactions. -/
theorem Base.same (hw : Base types R w) (hvault : w'.vault = w.vault)
    (hchain : w'.chain = w.chain) (hsent : w'.sent = w.sent)
    (hreceipts : w'.receipts = w.receipts) : Base types R w' := by
  refine ⟨hchain ▸ hw.sound, hvault ▸ hw.filed, fun h => hw.named (hvault ▸ h), fun h hs => ?_⟩
  rw [hsent, hchain]
  exact hw.confirmed (hreceipts ▸ h) hs

/-- However `ensure_token` ends, the task goes on with the cursors it had. -/
theorem ensureToken_run (w : BridgeWorld) (relayer : Relayer) (latest : Nat)
    (record : DepositRecord) (token : EvmAddress) :
    ∃ relayer', w.ensureToken relayer latest record token = w.run relayer' ∧
      relayer'.cursors = relayer.cursors ∧
      (relayer'.phase = .idle ∨ ∃ token', relayer'.phase = .readLast latest record token') := by
  unfold ensureToken
  split
  · exact ⟨_, rfl, rfl, .inr ⟨_, rfl⟩⟩
  · split
    · exact ⟨_, rfl, rfl, .inr ⟨_, rfl⟩⟩
    · exact ⟨_, rfl, rfl, .inl rfl⟩

/-! Persisting the cursors touches the file and its backups only. -/

@[simp] theorem persist_chain {disk : Disk} {cursors : Cursors} :
    (w.persist disk cursors).chain = w.chain := by
  cases disk <;> rfl

@[simp] theorem persist_receipts {disk : Disk} {cursors : Cursors} :
    (w.persist disk cursors).receipts = w.receipts := by
  cases disk <;> rfl

@[simp] theorem persist_vault {disk : Disk} {cursors : Cursors} :
    (w.persist disk cursors).vault = w.vault := by
  cases disk <;> rfl

@[simp] theorem persist_paid {disk : Disk} {cursors : Cursors} :
    (w.persist disk cursors).paid = w.paid := by
  cases disk <;> rfl

theorem Base.persist {disk : Disk} {cursors : Cursors} {relayer : Relayer}
    (hw : Base types R w) : Base types R ((w.persist disk cursors).run relayer) := by
  cases disk <;> exact hw.same rfl rfl rfl rfl

theorem Base.send {relayer : Relayer} (hw : Base types R w) (tx : RelayTx) :
    Base types R ((w.send tx).run relayer) := by
  refine ⟨hw.sound, hw.filed, hw.named, fun h hs => ?_⟩
  obtain ⟨tx', htx', hc⟩ := hw.confirmed h hs
  obtain ⟨hlt, -⟩ := List.getElem?_eq_some_iff.1 htx'
  exact ⟨tx', (List.getElem?_append_left hlt).trans htx', hc⟩

theorem Base.withdraw {T : CoinType} {recipient : Move.Address} {amount nonce : Nat}
    {vault : Vault} {moved : Bool} {paid : List Burn} {served : List (Bytes × Burn)}
    {relayer : Relayer} (hw : Base types R w)
    (h : w.vault.doWithdraw T recipient amount nonce = .ok (vault, moved)) :
    Base types R ({ w with vault, paid, served }.run relayer) := by
  obtain ⟨hdeposits, hnonce⟩ := Vault.doWithdraw_deposits h
  exact ⟨hw.sound, hw.filed.congr hdeposits hnonce, fun hd => hw.named (hdeposits ▸ hd),
    hw.confirmed⟩

theorem Base.moves {relayer : Relayer} (hw : Base types R w) (h : Moves types w relayer rpc w') :
    Base types R w' := by
  cases h with
  | stay => exact hw
  | sentCreate | lostCreate | sentMint | lostMint => exact hw.send _
  | @created latest record _ _ token =>
    obtain ⟨relayer', heq, -⟩ := ensureToken_run w relayer latest record token
    rw [heq]
    exact hw.same rfl rfl rfl rfl
  | minted | confirmed | unlisted | done => exact hw.persist
  | executed _ _ _ hwithdraw | released _ _ _ hwithdraw =>
    obtain ⟨_, hwithdraw⟩ := hwithdraw
    exact hw.withdraw hwithdraw
  | _ => exact hw.same rfl rfl rfl rfl

theorem Base.effect (hw : Base types R w) (h : Effect types R w a w') : Base types R w' := by
  cases h with
  | stay => exact hw
  | deposit hname hamount hd =>
    refine ⟨hw.sound, Vault.deposit_filed hw.filed hamount hd, fun {n record} hr => ?_,
      hw.confirmed⟩
    change Vault.deposits _ n = some record at hr
    rw [Vault.deposits_deposit hd] at hr
    split at hr
    · cases hr
      exact hname
    · exact hw.named hr
  | mine hrun =>
    obtain ⟨hb, -⟩ := hw.mine hrun
    exact ⟨hb.sound.closeBlock, hb.filed, hb.named, fun hr hs =>
      let ⟨tx, htx, hc⟩ := hb.confirmed hr hs
      ⟨tx, htx, hc.later Chain.closeBlock_later⟩⟩
  | indexed => exact hw.persist
  | moves _ hm => exact hw.moves hm
  | _ => exact hw.same rfl rfl rfl rfl

theorem reachable_base (h : Reachable (Start R) (enabled (exec types R)) w) : Base types R w :=
  h.inv (fun _ => start_base) fun _ _ _ hw hs => hw.effect (exec_effect hs)

/-- What no step takes back: the chain moves on, deposits stay filed, transactions stay
sent. -/
structure Grows (w w' : BridgeWorld) : Prop where
  later : w.chain.Later w'.chain
  deposits : ∀ {n record}, w.vault.deposits n = some record →
    w'.vault.deposits n = some record
  sent : w.sent <+: w'.sent

theorem Grows.sent_getElem {i : Nat} (h : Grows w w') (htx : w.sent[i]? = some tx) :
    w'.sent[i]? = some tx := by
  obtain ⟨hlt, -⟩ := List.getElem?_eq_some_iff.1 htx
  obtain ⟨rest, hrest⟩ := h.sent
  rw [← hrest, List.getElem?_append_left hlt, htx]

theorem grows_same (hvault : w'.vault = w.vault) (hchain : w'.chain = w.chain)
    (hsent : w'.sent = w.sent) : Grows w w' :=
  ⟨hchain ▸ .refl _, fun h => hvault ▸ h, hsent ▸ List.prefix_refl _⟩

theorem grows_persist {disk : Disk} {cursors : Cursors} {relayer : Relayer} :
    Grows w ((w.persist disk cursors).run relayer) := by
  cases disk <;> exact grows_same rfl rfl rfl

theorem grows_send {relayer : Relayer} : Grows w ((w.send tx).run relayer) :=
  ⟨.refl _, id, List.prefix_append ..⟩

theorem grows_withdraw {T : CoinType} {recipient : Move.Address} {amount nonce : Nat}
    {vault : Vault} {moved : Bool} {paid : List Burn} {served : List (Bytes × Burn)}
    {relayer : Relayer} (h : w.vault.doWithdraw T recipient amount nonce = .ok (vault, moved)) :
    Grows w ({ w with vault, paid, served }.run relayer) := by
  obtain ⟨hdeposits, -⟩ := Vault.doWithdraw_deposits h
  exact ⟨.refl _, fun hd => by rw [← hd]; exact congrFun hdeposits _, List.prefix_refl _⟩

theorem grows_moves {relayer : Relayer} (h : Moves types w relayer rpc w') : Grows w w' := by
  cases h with
  | sentCreate | lostCreate | sentMint | lostMint => exact grows_send
  | @created latest record _ _ token =>
    obtain ⟨relayer', heq, -⟩ := ensureToken_run w relayer latest record token
    rw [heq]
    exact grows_same rfl rfl rfl
  | minted | confirmed | unlisted | done => exact grows_persist
  | executed _ _ _ hwithdraw | released _ _ _ hwithdraw =>
    exact grows_withdraw hwithdraw.choose_spec
  | _ => exact grows_same rfl rfl rfl

theorem grows_effect (hw : Base types R w) (h : Effect types R w a w') : Grows w w' := by
  cases h with
  | deposit _ _ hd =>
    refine ⟨.refl _, fun {n record} hr => ?_, List.prefix_refl _⟩
    have hne : n ≠ w.vault.depositNonce :=
      Nat.ne_of_lt ((hw.filed.dense n).1 (by simp [hr]))
    exact (Vault.deposits_deposit hd n).trans ((if_neg hne).trans hr)
  | @mine txs u hrun =>
    obtain ⟨-, hm⟩ := hw.mine hrun
    have hrest := hm.rest
    refine ⟨hm.later.trans Chain.closeBlock_later, fun {n record} hr => ?_, ?_⟩
    · change u.vault.deposits n = some record
      rw [hrest]
      exact hr
    · change w.sent <+: u.sent
      rw [hrest]
  | indexed => exact grows_persist
  | moves _ hm => exact grows_moves hm
  | _ => exact grows_same rfl rfl rfl

/-- The chain only moves on along a run. -/
theorem later_run {as : List Action} (hw : Reachable (Start R) (enabled (exec types R)) w)
    (h : Run (enabled (exec types R)) w as w') : w.chain.Later w'.chain := by
  refine (h.inv (I := fun u => Base types R u ∧ w.chain.Later u.chain) (fun u _ _ hu hs => ?_)
    ⟨reachable_base hw, .refl _⟩).2
  have heffect := exec_effect hs
  exact ⟨hu.1.effect heffect, hu.2.trans (grows_effect hu.1 heffect).later⟩

/-! ## Sent transactions and executed withdrawals -/

/-- The transaction the task is about to send. -/
inductive Sends (relayer : Relayer) : RelayTx → Prop
  | create {latest record} : relayer.phase = .creating latest record →
      Sends relayer (.create record.coinType)
  | mint {latest record token recipient} : relayer.phase = .minting latest record token →
      FixedBytes.ofBytes? 20 record.recipientL2 = some recipient →
      Sends relayer (.mint token recipient record.amount relayer.cursors.nextDepositNonce)

theorem sent_persist {disk : Disk} {cursors : Cursors} {relayer : Relayer} :
    ((w.persist disk cursors).run relayer).sent = w.sent := by
  cases disk <;> rfl

theorem sent_moves {relayer : Relayer} (h : Moves types w relayer rpc w') :
    w'.sent = w.sent ∨ ∃ tx, Sends relayer tx ∧ w'.sent = w.sent ++ [tx] := by
  cases h with
  | sentCreate hp => exact .inr ⟨_, .create hp, rfl⟩
  | lostCreate hp => exact .inr ⟨_, .create hp, rfl⟩
  | sentMint hp hr => exact .inr ⟨_, .mint hp hr, rfl⟩
  | lostMint hp hr => exact .inr ⟨_, .mint hp hr, rfl⟩
  | @created latest record _ _ token =>
    obtain ⟨relayer', heq, -⟩ := ensureToken_run w relayer latest record token
    rw [heq]
    exact .inl rfl
  | minted | confirmed | unlisted | done => exact .inl sent_persist
  | _ => exact .inl rfl

/-- Only the running task sends transactions, one at a time. -/
theorem sent_cases (hw : Base types R w) (h : Effect types R w a w') : w'.sent = w.sent ∨
    ∃ rpc disk relayer tx, a = .relay rpc disk ∧ w.process = .running relayer ∧
      Sends relayer tx ∧ w'.sent = w.sent ++ [tx] := by
  cases h with
  | @mine txs u hrun =>
    change u.sent = w.sent ∨ _
    rw [(hw.mine hrun).2.rest]
    exact .inl rfl
  | indexed => exact .inl sent_persist
  | moves hp hm =>
    exact (sent_moves hm).imp_right fun ⟨tx, hs, he⟩ => ⟨_, _, _, tx, rfl, hp, hs, he⟩
  | _ => exact .inl rfl

theorem sent_effect (hw : Base types R w) (h : Effect types R w a w') (htx : tx ∈ w'.sent) :
    tx ∈ w.sent ∨ ∃ relayer, w.process = .running relayer ∧ Sends relayer tx := by
  rcases sent_cases hw h with he | ⟨-, -, relayer, tx', -, hp, hs, he⟩
  · exact .inl (he ▸ htx)
  · rcases List.mem_append.1 (he ▸ htx) with htx | htx
    · exact .inl htx
    · exact .inr ⟨relayer, hp, List.mem_singleton.1 htx ▸ hs⟩

/-- The chain and the receipts move in a mined block only. -/
theorem still_cases (h : Effect types R w a w') :
    (∃ txs u, Run (enabled (includeTx R)) w txs u ∧ w' = u.sealBlock) ∨
      w'.chain = w.chain ∧ w'.receipts = w.receipts := by
  cases h with
  | mine hrun => exact .inl ⟨_, _, hrun, rfl⟩
  | indexed => exact .inr ⟨persist_chain, persist_receipts⟩
  | @moves rpc disk relayer _ hp hm =>
    refine .inr ?_
    cases hm with
    | @created latest record _ _ token =>
      obtain ⟨relayer', heq, -⟩ := ensureToken_run w relayer latest record token
      rw [heq]
      exact ⟨rfl, rfl⟩
    | minted | confirmed | unlisted | done => exact ⟨persist_chain, persist_receipts⟩
    | _ => exact ⟨rfl, rfl⟩
  | _ => exact .inr ⟨rfl, rfl⟩

/-- A receipt stands. -/
theorem receipts_keep {i : Nat} (h : Effect types R w a w') (hr : w.receipts i = some receipt) :
    w'.receipts i = some receipt := by
  rcases still_cases h with ⟨txs, u, hrun, rfl⟩ | ⟨-, he⟩
  · refine hrun.inv (I := fun v => v.receipts i = some receipt) (fun v tx v' hv hs => ?_) hr
    cases tx with
    | outside sender created call =>
      simp only [enabled, BridgeWorld.includeTx, Option.ite_none_right_eq_some,
        Option.some.injEq] at hs
      exact hs.2 ▸ hv
    | relayed n created =>
      simp only [enabled, BridgeWorld.includeTx] at hs
      split at hs
      · rename_i hnone
        cases hs
        have hne : i ≠ n := by
          rintro rfl
          rw [hv] at hnone
          cases hnone
        exact (Function.update_of_ne hne ..).trans hv
      · cases hs
  · exact he ▸ hr

/-- The withdrawal the task is about to execute. -/
inductive Honours (relayer : Relayer) : Bytes × Burn → Prop
  | head {latest burn rest coin} : relayer.phase = .releasing latest (burn :: rest) →
      relayer.tokens.coinFor burn.token = some coin → Honours relayer (coin, burn)

theorem served_persist {disk : Disk} {cursors : Cursors} {relayer : Relayer} :
    ((w.persist disk cursors).run relayer).served = w.served := by
  cases disk <;> rfl

theorem served_moves {relayer : Relayer} {e : Bytes × Burn} (h : Moves types w relayer rpc w')
    (he : e ∈ w'.served) : e ∈ w.served ∨ Honours relayer e := by
  cases h with
  | released hp hcoin =>
    rcases List.mem_cons.1 he with rfl | he
    · exact .inr (.head hp hcoin)
    · exact .inl he
  | @created latest record _ _ token =>
    obtain ⟨relayer', heq, -⟩ := ensureToken_run w relayer latest record token
    rw [heq] at he
    exact .inl he
  | minted | confirmed | unlisted | done => exact .inl (served_persist ▸ he)
  | _ => exact .inl he

theorem served_effect {e : Bytes × Burn} (hw : Base types R w) (h : Effect types R w a w')
    (he : e ∈ w'.served) :
    e ∈ w.served ∨ ∃ relayer, w.process = .running relayer ∧ Honours relayer e := by
  cases h with
  | mine hrun =>
    have hm := (hw.mine hrun).2
    rw [hm.rest] at he
    exact .inl he
  | indexed => exact .inl (served_persist ▸ he)
  | moves hp hm => exact (served_moves hm he).imp_right fun hs => ⟨_, hp, hs⟩
  | _ => exact .inl he

/-- The vault moves by a deposit or by a withdrawal of the running task. -/
theorem vault_cases (hw : Base types R w) (h : Effect types R w a w') :
    (w'.vault = w.vault ∧ w'.paid = w.paid) ∨
    (∃ T amount recipientL2, types.isName T ∧ w.vault.deposit T amount recipientL2 = .ok w'.vault ∧
      w'.chain = w.chain ∧ w'.paid = w.paid) ∨
    ∃ relayer latest burn rest coin T recipient moved, w.process = .running relayer ∧
      relayer.phase = .releasing latest (burn :: rest) ∧
      relayer.tokens.coinFor burn.token = some coin ∧ types.parse coin = some T ∧
      w.vault.doWithdraw T recipient burn.amount burn.nonce = .ok (w'.vault, moved) ∧
      w'.chain = w.chain ∧ w'.paid = if moved then burn :: w.paid else w.paid := by
  cases h with
  | deposit hname _ hd => exact .inr (.inl ⟨_, _, _, hname, hd, rfl, rfl⟩)
  | @mine txs u hrun =>
    refine .inl ?_
    change u.vault = w.vault ∧ u.paid = w.paid
    rw [(hw.mine hrun).2.rest]
    exact ⟨rfl, rfl⟩
  | indexed => exact .inl ⟨persist_vault, persist_paid⟩
  | @moves rpc disk relayer _ hp hm =>
    cases hm with
    | executed hphase hcoin hparse hd | released hphase hcoin hparse hd =>
      obtain ⟨recipient, hd⟩ := hd
      exact .inr (.inr ⟨_, _, _, _, _, _, _, _, hp, hphase, hcoin, hparse, hd, rfl, rfl⟩)
    | @created latest record _ _ token =>
      obtain ⟨relayer', heq, -⟩ := ensureToken_run w relayer latest record token
      rw [heq]
      exact .inl ⟨rfl, rfl⟩
    | minted | confirmed | unlisted | done => exact .inl ⟨persist_vault, persist_paid⟩
    | _ => exact .inl ⟨rfl, rfl⟩
  | _ => exact .inl ⟨rfl, rfl⟩

/-! ## Cursors, in memory and on disk -/

/-- Cursors the process works with, or that it could find in the file. -/
inductive Holds (w : BridgeWorld) : Cursors → Prop
  | running {relayer} : w.process = .running relayer → Holds w relayer.cursors
  | indexing {cursors head tokens chunk start} :
      w.process = .indexing cursors head tokens chunk start → Holds w cursors
  | file {cursors} : w.file = .written cursors → Holds w cursors
  | backup {cursors} : cursors ∈ w.backups → Holds w cursors

/-- Why the relayer takes the deposit under its cursor for minted. -/
inductive Seen (w : BridgeWorld) (relayer : Relayer) : Prop
  | already {latest record token last bridge} : relayer.phase = .readAny latest record token last →
      w.chain.contracts.bridges token = some bridge → bridge.mintedAny →
      relayer.cursors.nextDepositNonce ≤ last → Seen w relayer
  | confirmed {latest record token i r} : relayer.phase = .awaitMinted latest record token i →
      w.receipts i = some r → r.success → Seen w relayer

/-- Why the relayer takes the burns up to a block for released. -/
inductive Released (relayer : Relayer) (latest : Nat) : Prop
  | unlisted : relayer.phase = .fetching latest → relayer.tokens.addresses = [] →
      Released relayer latest
  | done : relayer.phase = .releasing latest [] → Released relayer latest

/-- The cursors a step can newly produce. -/
inductive Produces (w : BridgeWorld) : Cursors → Prop
  | default : Produces w .default
  | downgraded {cursors} : w.file = .written cursors → Produces w cursors.withoutTokens
  | advanced {relayer} : w.process = .running relayer → Seen w relayer →
      Produces w (relayer.cursors.advanced relayer.tokens)
  | finished {relayer latest} : w.process = .running relayer → Released relayer latest →
      Produces w (relayer.cursors.scanned relayer.tokens latest)
  | indexed {cursors head tokens chunk start} :
      w.process = .indexing cursors head tokens chunk start → head < start →
      Produces w (cursors.scanned tokens head)

/-- What a start finds in the file. -/
theorem holds_load : w.Holds w.file.load ∨ w.file.load = .default := by
  cases hf : w.file with
  | missing => exact .inr rfl
  | torn => exact .inr rfl
  | written cursors => exact .inl (.file hf)

/-- Writing the file and going on with the written cursors. -/
theorem holds_persist {disk : Disk} {relayer : Relayer} {cursors c : Cursors}
    (h : ((w.persist disk cursors).run relayer).Holds c) (hc : relayer.cursors = cursors) :
    w.Holds c ∨ c = cursors := by
  subst hc
  cases h with
  | running hp =>
    cases hp
    exact .inr rfl
  | indexing hp => cases hp
  | file hf =>
    cases disk with
    | written =>
      cases hf
      exact .inr rfl
    | unchanged => exact .inl (.file hf)
    | torn => cases hf
  | backup hb =>
    cases disk with
    | written =>
      rcases List.mem_cons.1 hb with rfl | hb
      · exact .inr rfl
      · exact .inl (.backup hb)
    | unchanged => exact .inl (.backup hb)
    | torn => exact .inl (.backup hb)

/-- A step that leaves the disk alone: new cursors are in memory. -/
theorem holds_memory {P : Prop} {c : Cursors} (h : w'.Holds c) (hfile : w'.file = w.file)
    (hbackups : w'.backups = w.backups)
    (hrunning : ∀ relayer, w'.process = .running relayer → c = relayer.cursors → P)
    (hindexing : ∀ head tokens chunk start,
      w'.process = .indexing c head tokens chunk start → P) : w.Holds c ∨ P := by
  cases h with
  | running hp => exact .inr (hrunning _ hp rfl)
  | indexing hp => exact .inr (hindexing _ _ _ _ hp)
  | file hf => exact .inl (.file (hfile ▸ hf))
  | backup hb => exact .inl (.backup (hbackups ▸ hb))

/-- A step that changes the file only. -/
theorem holds_file {file : CursorFile} {c : Cursors} (h : Holds { w with file } c) :
    w.Holds c ∨ file = .written c := by
  cases h with
  | running hp => exact .inl (.running hp)
  | indexing hp => exact .inl (.indexing hp)
  | file hf => exact .inr hf
  | backup hb => exact .inl (.backup hb)

/-- A step that leaves the disk and the process alone. -/
theorem holds_same {c : Cursors} (h : w'.Holds c) (hfile : w'.file = w.file)
    (hbackups : w'.backups = w.backups) (hprocess : w'.process = w.process) : w.Holds c := by
  refine (holds_memory (w := w) h hfile hbackups (fun relayer hp hc => ?_)
    fun _ _ _ _ hp => ?_).elim id id
  · exact hc ▸ .running (hprocess ▸ hp)
  · exact .indexing (hprocess ▸ hp)

/-- A step of the running task that leaves the disk and the cursors alone. -/
theorem holds_run {relayer relayer' : Relayer} {c : Cursors} (h : (w'.run relayer').Holds c)
    (hp : w.process = .running relayer) (hc : relayer'.cursors = relayer.cursors)
    (hfile : w'.file = w.file) (hbackups : w'.backups = w.backups) : w.Holds c := by
  refine (holds_memory (w := w) h hfile hbackups (fun _ hp' he => ?_)
    fun _ _ _ _ hp' => ?_).elim id id
  · cases hp'
    exact he ▸ hc ▸ .running hp
  · cases hp'

theorem holds_ensureToken {relayer : Relayer} {latest : Nat} {record : DepositRecord}
    {token : EvmAddress} {c : Cursors} (hp : w.process = .running relayer)
    (h : (w.ensureToken relayer latest record token).Holds c) : w.Holds c := by
  obtain ⟨relayer', heq, hcursors, -⟩ := ensureToken_run w relayer latest record token
  rw [heq] at h
  exact holds_run h hp hcursors rfl rfl

theorem holds_moves {relayer : Relayer} {c : Cursors} (hp : w.process = .running relayer)
    (h : Moves types w relayer rpc w') (hc : w'.Holds c) : w.Holds c ∨ Produces w c := by
  cases h with
  | stay => exact .inl hc
  | created => exact .inl (holds_ensureToken hp hc)
  | minted hphase hb hany hle =>
    rcases holds_persist hc rfl with hc | rfl
    · exact .inl hc
    · exact .inr (.advanced hp (.already hphase hb hany hle))
  | confirmed hphase hr hs =>
    rcases holds_persist hc rfl with hc | rfl
    · exact .inl hc
    · exact .inr (.advanced hp (.confirmed hphase hr hs))
  | unlisted hphase hnil =>
    rcases holds_persist hc rfl with hc | rfl
    · exact .inl hc
    · exact .inr (.finished hp (.unlisted hphase hnil))
  | done hphase =>
    rcases holds_persist hc rfl with hc | rfl
    · exact .inl hc
    · exact .inr (.finished hp (.done hphase))
  | _ => exact .inl (holds_run hc hp rfl rfl rfl)

/-- Where the cursors after a step come from: from before it, from a file that was lost or
written by an older version, from the end of a scan, or from a request of the running task. -/
theorem holds_cases {c : Cursors} (hw : Base types R w) (h : Effect types R w a w')
    (hc : w'.Holds c) :
    (w.Holds c ∨ c = .default ∨
      ∃ cursors, w.file = .written cursors ∧ c = cursors.withoutTokens) ∨
    (∃ rpc disk cursors head tokens chunk start, a = .index rpc disk ∧
      w.process = .indexing cursors head tokens chunk start ∧ head < start ∧
      c = cursors.scanned tokens head) ∨
    ∃ rpc disk relayer, a = .relay rpc disk ∧ w.process = .running relayer ∧
      Moves types w relayer rpc w' := by
  cases h with
  | stay => exact .inl (.inl hc)
  | deposit => exact .inl (.inl (holds_same hc rfl rfl rfl))
  | mine hrun =>
    have hm := (hw.mine hrun).2
    rw [hm.rest] at hc
    exact .inl (.inl (holds_same hc rfl rfl rfl))
  -- a file that is gone or torn holds no cursors
  | lostFile hfile =>
    obtain hc | hc := holds_file hc
    · exact .inl (.inl hc)
    · rcases hfile with rfl | rfl <;> cases hc
  | downgraded hfile =>
    obtain hc | hc := holds_file hc
    · exact .inl (.inl hc)
    · cases hc
      exact .inl (.inr (.inr ⟨_, hfile, rfl⟩))
  | restoredFile hmem =>
    obtain hc | hc := holds_file hc
    · exact .inl (.inl hc)
    · cases hc
      exact .inl (.inl (.backup hmem))
  | down =>
    exact .inl (.inl ((holds_memory (w := w) hc rfl rfl (fun _ hp => nomatch hp)
      fun _ _ _ _ hp => nomatch hp).elim id id))
  -- what a start loads stood in the file, or is the default
  | restored =>
    refine .inl ((holds_memory (w := w) hc rfl rfl (P := w.Holds c ∨ c = .default)
      (fun _ hp he => ?_) fun _ _ _ _ hp => nomatch hp).elim .inl fun h => h.imp_right .inl)
    cases hp
    exact he ▸ holds_load
  | scan =>
    refine .inl ((holds_memory (w := w) hc rfl rfl (P := w.Holds c ∨ c = .default)
      (fun _ hp => nomatch hp) fun _ _ _ _ hp => ?_).elim .inl fun h => h.imp_right .inl)
    cases hp
    exact holds_load
  | scanned hp₀ | narrowed hp₀ =>
    refine .inl (.inl ((holds_memory (w := w) hc rfl rfl (fun _ hp => nomatch hp)
      fun _ _ _ _ hp => ?_).elim id id))
    cases hp
    exact .indexing hp₀
  | indexed hp hlt =>
    rcases holds_persist hc rfl with hc | rfl
    · exact .inl (.inl hc)
    · exact .inr (.inl ⟨_, _, _, _, _, _, _, rfl, hp, hlt, rfl⟩)
  | rest hp | beginDeposits hp | beginWithdrawals hp =>
    exact .inl (.inl (holds_run hc hp rfl rfl rfl))
  | moves hp hm => exact .inr (.inr ⟨_, _, _, rfl, hp, hm⟩)

/-- The cursors after a step were there before it, or are the step's own. -/
theorem holds_effect {c : Cursors} (hw : Base types R w) (h : Effect types R w a w')
    (hc : w'.Holds c) : w.Holds c ∨ Produces w c := by
  obtain (hc | rfl | ⟨cursors, hfile, rfl⟩) |
    ⟨rpc, disk, cursors, head, tokens, chunk, start, rfl, hp, hlt, rfl⟩ |
    ⟨rpc, disk, relayer, rfl, hp, hm⟩ := holds_cases hw h hc
  · exact .inl hc
  · exact .inr .default
  · exact .inr (.downgraded hfile)
  · exact .inr (.indexed hp hlt)
  · exact holds_moves hp hm hc

/-! ## Block bounds -/

/-- The head block a withdrawal pass works up to. -/
def range : Phase → Option Nat
  | .absorbing latest => some latest
  | .fetching latest => some latest
  | .releasing latest _ => some latest
  | _ => none

/-- No cursor and no pass is ahead of the chain. -/
structure Bounded (w : BridgeWorld) : Prop where
  closed : ∀ log ∈ w.chain.logs, log.1 ≤ w.chain.head
  cursors : ∀ {c}, w.Holds c → c.nextL2Block ≤ w.chain.head + 1
  indexing : ∀ {cursors head tokens chunk start},
    w.process = .indexing cursors head tokens chunk start →
    head ≤ w.chain.head ∧ start ≤ head + 1
  running : ∀ {relayer latest}, w.process = .running relayer →
    range relayer.phase = some latest →
    latest ≤ w.chain.head ∧ relayer.cursors.nextL2Block ≤ latest + 1

theorem start_bounded (h : Start R w) : Bounded w := by
  obtain ⟨hR, id, predeploy, rfl⟩ := h
  refine ⟨fun _ h => (List.not_mem_nil h).elim, fun hc => ?_, (nomatch ·), (nomatch ·)⟩
  cases hc with
  | running hp => cases hp
  | indexing hp => cases hp
  | file hf => cases hf
  | backup hb => cases hb

/-- The cursors a step produces are not ahead of the chain. -/
theorem Bounded.produces {c : Cursors} (hw : Bounded w) (h : Produces w c) :
    c.nextL2Block ≤ w.chain.head + 1 := by
  cases h with
  | default => exact Nat.zero_le _
  | downgraded hf =>
    have hle := hw.cursors (.file hf)
    exact hle
  | advanced hp _ =>
    have hle := hw.cursors (.running hp)
    exact hle
  | finished hp hr =>
    cases hr with
    | unlisted hphase _ => exact Nat.succ_le_succ (hw.running hp (by rw [hphase]; rfl)).1
    | done hphase => exact Nat.succ_le_succ (hw.running hp (by rw [hphase]; rfl)).1
  | indexed hp _ => exact Nat.succ_le_succ (hw.indexing hp).1

/-- A step of the running task that leaves the chain alone: only the range of its pass is
left to check. -/
theorem Bounded.run {relayer : Relayer} (hw : Bounded w) (hchain : w'.chain = w.chain)
    (hcursors : ∀ {c}, (w'.run relayer).Holds c → c.nextL2Block ≤ w.chain.head + 1)
    (hrange : ∀ {latest}, range relayer.phase = some latest →
      latest ≤ w.chain.head ∧ relayer.cursors.nextL2Block ≤ latest + 1) :
    Bounded (w'.run relayer) := by
  refine ⟨fun log hlog => ?_, fun hc => ?_, (nomatch ·), fun hp hr => ?_⟩
  · change log ∈ w'.chain.logs at hlog
    change log.1 ≤ w'.chain.head
    rw [hchain] at hlog ⊢
    exact hw.closed log hlog
  · change _ ≤ w'.chain.head + 1
    rw [hchain]
    exact hcursors hc
  · cases hp
    change _ ≤ w'.chain.head ∧ _
    rw [hchain]
    exact hrange hr

theorem Bounded.moves {relayer : Relayer} (hw : Bounded w)
    (hp : w.process = .running relayer) (h : Moves types w relayer rpc w') : Bounded w' := by
  have hcursors : ∀ {c}, w'.Holds c → c.nextL2Block ≤ w.chain.head + 1 := fun hc =>
    (holds_moves hp h hc).elim hw.cursors hw.produces
  have hsame : ∀ {latest latest'}, range relayer.phase = some latest' → latest' = latest →
      latest ≤ w.chain.head ∧ relayer.cursors.nextL2Block ≤ latest + 1 := by
    rintro latest _ hr rfl
    exact hw.running hp hr
  cases h with
  | stay => exact hw
  | @created latest record _ _ token =>
    obtain ⟨relayer', heq, -, hphase⟩ := ensureToken_run w relayer latest record token
    have hrange : range relayer'.phase = none := by
      rcases hphase with hphase | ⟨_, hphase⟩ <;> rw [hphase] <;> rfl
    rw [heq] at hcursors ⊢
    exact hw.run rfl hcursors fun hr => nomatch hrange.symm.trans hr
  | minted | confirmed | unlisted | done => exact hw.run persist_chain hcursors (nomatch ·)
  | absorbed hphase | fetched hphase | released hphase =>
    exact hw.run rfl hcursors fun hr => hsame (by rw [hphase]; rfl) (Option.some.inj hr)
  | _ => exact hw.run rfl hcursors (nomatch ·)

theorem Bounded.effect (hb : Base types R w) (hw : Bounded w) (h : Effect types R w a w') :
    Bounded w' := by
  have hcursors : ∀ {c}, w'.Holds c → c.nextL2Block ≤ w.chain.head + 1 := fun hc =>
    (holds_effect hb h hc).elim hw.cursors hw.produces
  cases h with
  | stay => exact hw
  | deposit | lostFile | downgraded | restoredFile =>
    exact ⟨hw.closed, hcursors, hw.indexing, hw.running⟩
  | @mine txs u hrun =>
    obtain ⟨hbase, hmined⟩ := hb.mine hrun
    have hhead : w.chain.head ≤ u.chain.head + 1 := Nat.le_succ_of_le hmined.later.head
    have hprocess : ∀ {p}, u.process = p → w.process = p := fun hp => by
      rw [hmined.rest] at hp
      exact hp
    refine ⟨fun log hlog => hbase.sound.bounded log hlog, fun hc => ?_, fun hp => ?_,
      fun hp hr => ?_⟩
    · exact (hcursors hc).trans (Nat.succ_le_succ hhead)
    · exact (hw.indexing (hprocess hp)).imp_left fun hle => hle.trans hhead
    · exact (hw.running (hprocess hp) hr).imp_left fun hle => hle.trans hhead
  | down => exact ⟨hw.closed, hcursors, (nomatch ·), (nomatch ·)⟩
  | restored | rest | beginDeposits => exact hw.run rfl hcursors (nomatch ·)
  | scan =>
    refine ⟨hw.closed, hcursors, fun hp => ?_, (nomatch ·)⟩
    cases hp
    exact ⟨Nat.le_refl _, Nat.zero_le _⟩
  | scanned hp hstop =>
    refine ⟨hw.closed, hcursors, fun hp' => ?_, (nomatch ·)⟩
    cases hp'
    exact ⟨(hw.indexing hp).1, Nat.succ_le_succ hstop⟩
  | narrowed hp =>
    refine ⟨hw.closed, hcursors, fun hp' => ?_, (nomatch ·)⟩
    cases hp'
    exact hw.indexing hp
  | indexed => exact hw.run persist_chain hcursors (nomatch ·)
  | beginWithdrawals hp =>
    refine hw.run rfl hcursors fun hr => ?_
    cases hr
    have hle := hw.cursors (.running hp)
    exact ⟨Nat.le_refl _, hle⟩
  | moves hp hm => exact hw.moves hp hm

theorem reachable_bounded (h : Reachable (Start R) (enabled (exec types R)) w) : Bounded w :=
  h.inv_of (fun _ => reachable_base) (fun _ => start_bounded)
    fun _ _ _ hb _ hw hs => hw.effect hb (exec_effect hs)

end BridgeWorld

end Podseq.Node
