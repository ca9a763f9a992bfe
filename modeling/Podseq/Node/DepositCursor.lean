import Podseq.Node.SpelledTokens

/-! # The deposit cursor follows the mints

Every mint of a listed token is one the relayer sent, for the deposit of that nonce, when all
deposits before it were minted. So the cursor passes a deposit only once it is minted, whichever
token was chosen for it and whatever the reads of the mint cursor returned.
-/
namespace Podseq.Node
open Podseq.Lib Podseq.Move Podseq.Solidity

namespace BridgeWorld

variable {types : CoinTypeSyntax} {R : EvmAddress} {w w' : BridgeWorld} {a : Action}
  {relayer : Relayer} {rpc : Rpc} {token : EvmAddress} {n amount : Nat}

/-! ## Where the mints come from -/

/-- The relayer sent the mint, and it succeeded. -/
def Delivered (w : BridgeWorld) (token : EvmAddress) (n amount : Nat) : Prop :=
  ∃ i recipient receipt, w.sent[i]? = some (.mint token recipient amount n) ∧
    w.receipts i = some receipt ∧ receipt.success

theorem Delivered.keep (h : w.Delivered token n amount)
    (hsent : ∀ {i : Nat} {tx}, w.sent[i]? = some tx → w'.sent[i]? = some tx)
    (hreceipts : ∀ {i receipt}, w.receipts i = some receipt → w'.receipts i = some receipt) :
    w'.Delivered token n amount := by
  obtain ⟨i, recipient, receipt, htx, hr, hs⟩ := h
  exact ⟨i, recipient, receipt, hsent htx, hreceipts hr, hs⟩

/-- Every mint of a listed token was delivered. -/
def Sourced (w : BridgeWorld) : Prop := ∀ token n amount, w.chain.Listed token →
  (n, amount) ∈ Bridge.mintsIn (w.chain.eventsOf token) → w.Delivered token n amount

/-- A transaction that mints nothing on a listed token. -/
theorem Sourced.unprivileged {sender created : EvmAddress} {call : L2Call} (hw : Base types R w)
    (hs : Sourced w) (hp : w.chain.contracts.Unprivileged R sender call)
    (hl : (w.chain.execute sender created call).1.Listed token)
    (hm : (n, amount) ∈ Bridge.mintsIn
      ((w.chain.execute sender created call).1.eventsOf token)) :
    w.Delivered token n amount := by
  rcases Chain.execute_mints hw.sound hp hl with hnone | ⟨hl, hsame⟩
  · rw [hnone] at hm
    cases hm
  · exact hs _ _ _ hl (hsame ▸ hm)

theorem Sourced.includeTx {i : Inclusion} (hw : Base types R w) (hs : Sourced w)
    (h : includeTx R w i = some w') : Sourced w' := by
  intro token n amount hl hm
  cases i with
  | outside sender created call =>
    simp only [BridgeWorld.includeTx, Option.ite_none_right_eq_some, Option.some.injEq] at h
    obtain ⟨hp, rfl⟩ := h
    have hdelivered : w.Delivered token n amount := hs.unprivileged hw hp hl hm
    exact hdelivered
  | relayed k created =>
    simp only [BridgeWorld.includeTx] at h
    split at h
    · rename_i tx htx hnone
      cases h
      have hkeep : ∀ {i receipt}, w.receipts i = some receipt →
          Function.update w.receipts k (some (w.chain.execute R created tx.toCall).2) i =
            some receipt := by
        intro i receipt hr
        have hne : i ≠ k := by
          rintro rfl
          rw [hr] at hnone
          cases hnone
        rw [Function.update_of_ne hne, hr]
      cases tx with
      | createBridge name symbol coinType =>
        exact (hs.unprivileged hw rfl hl hm).keep id hkeep
      | mint token' recipient amount' nonce =>
        rcases Chain.execute_mint hm with hm | ⟨rfl, he, hsuccess⟩
        · exact (hs _ _ _ (Chain.execute_bridge_listed.1 hl) hm).keep id hkeep
        · cases he
          exact ⟨k, recipient, _, htx, Function.update_self .., hsuccess⟩
    · cases h

theorem Sourced.effect (hw : Base types R w) (hs : Sourced w) (h : Effect types R w a w') :
    Sourced w' := by
  rcases still_cases h with ⟨txs, u, hrun, rfl⟩ | ⟨hchain, -⟩
  · have hu : Base types R u ∧ Sourced u := hrun.inv (I := fun v => Base types R v ∧ Sourced v)
      (fun _ _ _ hv hstep => ⟨(hv.1.includeTx hstep).1, hv.2.includeTx hv.1 hstep⟩) ⟨hw, hs⟩
    exact hu.2
  · intro token n amount hl hm
    rw [hchain] at hl hm
    exact (hs _ _ _ hl hm).keep (grows_effect hw h).sent_getElem (receipts_keep h)

theorem start_sourced (h : Start R w) : Sourced w := by
  obtain ⟨hR, id, predeploy, rfl⟩ := h
  intro token n amount hl hm
  cases hm

theorem reachable_sourced (h : Reachable (Start R) (enabled (exec types R)) w) : Sourced w :=
  h.inv_of (J := fun w => Base types R w) (I := fun w => Sourced w) (fun _ => reachable_base)
    (fun _ => start_sourced) fun _ _ _ hw _ hs hstep => hs.effect hw (exec_effect hstep)

/-! ## What the task knows -/

/-- The deposit has a mint on a listed token. -/
def Minted (w : BridgeWorld) (n : Nat) : Prop := ∃ token amount, w.chain.Listed token ∧
  (n, amount) ∈ Bridge.mintsIn (w.chain.eventsOf token)

theorem Minted.later (h : w.Minted n) (hl : w.chain.Later w'.chain) : w'.Minted n := by
  obtain ⟨token, amount, hlisted, hm⟩ := h
  exact ⟨token, amount, hl.listed hlisted, hl.mints hm⟩

/-- The record of the deposit `n`, and a token of its coin type. -/
def Due (types : CoinTypeSyntax) (w : BridgeWorld) (n : Nat) (record : DepositRecord)
    (token : EvmAddress) : Prop :=
  w.vault.deposits n = some record ∧ Known types w.chain record.coinType token

theorem Due.later {record : DepositRecord} (h : Due types w n record token) (hg : Grows w w') :
    Due types w' n record token :=
  ⟨hg.deposits h.1, h.2.later hg.later⟩

/-- What the task has found out in each phase. -/
def Informed (types : CoinTypeSyntax) (w : BridgeWorld) (relayer : Relayer) : Prop :=
  let nonce := relayer.cursors.nextDepositNonce
  match relayer.phase with
  | .creating _ record => w.vault.deposits nonce = some record
  | .awaitCreated _ record i => w.vault.deposits nonce = some record ∧
    w.sent[i]? = some (.create record.coinType)
  | .readLast _ record token => Due types w nonce record token
  | .readAny _ record token last => Due types w nonce record token ∧
    (last = 0 ∨ ∃ amount, (last, amount) ∈ Bridge.mintsIn (w.chain.eventsOf token))
  | .minting _ record token => Due types w nonce record token
  | .awaitMinted _ record token i => w.chain.Listed token ∧
    ∃ recipient, w.sent[i]? = some (.mint token recipient record.amount nonce)
  | .releasing _ burns => ∀ burn ∈ burns, burn ∈ burnsOf w.chain.logs
  | _ => True

theorem burnsOf_subset {logs logs' : List (Nat × Log)} (h : logs ⊆ logs') {burn : Burn}
    (hburn : burn ∈ burnsOf logs) : burn ∈ burnsOf logs' := by
  obtain ⟨log, hlog, hofLog⟩ := List.mem_filterMap.1 hburn
  exact List.mem_filterMap.2 ⟨log, h hlog, hofLog⟩

theorem Informed.later (h : Informed types w relayer) (hg : Grows w w') :
    Informed types w' relayer := by
  unfold Informed at h ⊢
  split at h <;> simp only
  · exact hg.deposits h
  · exact ⟨hg.deposits h.1, hg.sent_getElem h.2⟩
  · exact h.later hg
  · refine ⟨h.1.later hg, h.2.imp_right fun ⟨amount, hm⟩ => ⟨amount, hg.later.mints hm⟩⟩
  · exact h.later hg
  · obtain ⟨hlisted, recipient, htx⟩ := h
    exact ⟨hg.later.listed hlisted, recipient, hg.sent_getElem htx⟩
  · exact fun burn hburn => burnsOf_subset (fun _ => hg.later.mem) (h burn hburn)

/-- Whatever the relayer works with comes from the chain and from what it sent. -/
structure Traced (types : CoinTypeSyntax) (w : BridgeWorld) : Prop where
  indexing : ∀ {cursors head tokens chunk start},
    w.process = .indexing cursors head tokens chunk start → Registered types w.chain tokens
  running : ∀ {relayer}, w.process = .running relayer →
    Registered types w.chain relayer.tokens ∧ Informed types w relayer
  snapshots : ∀ {c}, w.Holds c → c.tokens.isEmpty ∨ ∃ registry : TokenRegistry,
    c.tokens = registry.snapshot ∧ Registered types w.chain registry
  sent : ∀ {token recipient amount n}, .mint token recipient amount n ∈ w.sent →
    (∃ record, Due types w n record token ∧ record.amount = amount) ∧ ∀ m < n, w.Minted m
  cursors : ∀ {c}, w.Holds c → ∀ m < c.nextDepositNonce, w.Minted m

namespace Traced

/-- The task has seen the deposit under its cursor minted. -/
theorem seen (hw : Base types R w) (hs : Sourced w) (ht : Traced types w)
    (hp : w.process = .running relayer) (h : Seen w relayer) :
    w.Minted relayer.cursors.nextDepositNonce := by
  have hinformed := (ht.running hp).2
  cases h with
  | @already latest record token last bridge hphase hb hany hle =>
    rw [Informed, hphase] at hinformed
    obtain ⟨hdue, hlast⟩ := hinformed
    have haccounts := hw.sound.accounts hb
    have hminted : ∃ amount, (last, amount) ∈ Bridge.mintsIn (w.chain.eventsOf token) := by
      rcases hlast with rfl | hlast
      · obtain ⟨⟨m, amount⟩, hm, rfl⟩ := List.mem_map.1 (haccounts.first hany)
        exact ⟨amount, hm⟩
      · exact hlast
    obtain ⟨amount, hm⟩ := hminted
    -- The mint of `last` was sent once all deposits before it were minted.
    rcases Nat.lt_or_eq_of_le hle with hlt | heq
    · obtain ⟨i, recipient, receipt, htx, -, -⟩ := hs _ _ _ hdue.2.listed hm
      exact (ht.sent (List.mem_of_getElem? htx)).2 _ hlt
    · exact heq ▸ ⟨token, amount, hdue.2.listed, hm⟩
  | @confirmed latest record token i r hphase hr hsuccess =>
    rw [Informed, hphase] at hinformed
    obtain ⟨hlisted, recipient, htx⟩ := hinformed
    obtain ⟨tx, htx', hconfirms⟩ := hw.confirmed hr hsuccess
    rw [htx] at htx'
    cases htx'
    exact ⟨token, record.amount, hlisted, hconfirms⟩

structure Process (types : CoinTypeSyntax) (w : BridgeWorld) : Prop where
  indexing : ∀ {cursors head tokens chunk start},
    w.process = .indexing cursors head tokens chunk start → Registered types w.chain tokens
  running : ∀ {relayer}, w.process = .running relayer →
    Registered types w.chain relayer.tokens ∧ Informed types w relayer

theorem Process.run (hregistered : Registered types w.chain relayer.tokens)
    (hinformed : Informed types (w.run relayer) relayer) : Process types (w.run relayer) := by
  refine ⟨(nomatch ·), fun hp => ?_⟩
  cases hp
  exact ⟨hregistered, hinformed⟩

/-- The end of `ensure_token`: either way the task goes on with a token of the coin type. -/
theorem ensureToken {latest : Nat} {record : DepositRecord} (hs : w.chain.Sound R)
    (hr : Registered types w.chain relayer.tokens)
    (hfiled : w.vault.deposits relayer.cursors.nextDepositNonce = some record)
    (hk : Known types w.chain record.coinType token) :
    Process types (w.ensureToken relayer latest record token) := by
  have hinsert := hr.insert hs hk
  unfold BridgeWorld.ensureToken
  split
  · rename_i tokens heq
    rw [heq] at hinsert
    exact .run hinsert ⟨hfiled, hk⟩
  · rename_i tokens heq
    rw [heq] at hinsert
    split
    · rename_i canonical hfor
      exact .run hinsert ⟨hfiled, hinsert.known hfor⟩
    · exact .run hr trivial

theorem moves (hw : Base types R w) (ht : Traced types w) (hp : w.process = .running relayer)
    (h : Moves types w relayer rpc w') : Process types w' := by
  obtain ⟨hregistered, hinformed⟩ := ht.running hp
  cases h with
  | stay => exact ⟨ht.indexing, ht.running⟩
  | idle | lostCreate | lostMint | executed => exact .run hregistered trivial
  | found hphase hfiled hfor => exact .run hregistered ⟨hfiled, hregistered.known hfor⟩
  | lacking hphase hfiled => exact .run hregistered hfiled
  | sentCreate hphase =>
    rw [Informed, hphase] at hinformed
    exact .run hregistered ⟨hinformed, List.getElem?_concat_length⟩
  | created hphase hrpc hr hsuccess htoken =>
    rw [Informed, hphase] at hinformed
    obtain ⟨hfiled, hsent⟩ := hinformed
    obtain ⟨tx, htx, hconfirms⟩ := hw.confirmed hr hsuccess
    rw [hsent] at htx
    cases htx
    obtain ⟨hfor, hne⟩ := hconfirms _ htoken
    exact ensureToken hw.sound hregistered hfiled ⟨hne, _, hfor, .inr ⟨rfl, hw.named hfiled⟩⟩
  | @readLast latest record token last hphase hlast =>
    rw [Informed, hphase] at hinformed
    refine .run hregistered ⟨hinformed, ?_⟩
    rcases hlast with hzero | ⟨bridge, hb, rfl⟩
    · exact .inl hzero
    · have haccounts := hw.sound.accounts hb
      cases hany : bridge.mintedAny with
      | false => exact .inl (haccounts.unset hany)
      | true =>
        obtain ⟨⟨m, amount⟩, hm, hlast⟩ := List.mem_map.1 (haccounts.last hany)
        exact .inr ⟨amount, hlast ▸ hm⟩
  | minted | confirmed | unlisted | done => exact .run (persist_chain.symm ▸ hregistered) trivial
  | unminted hphase =>
    rw [Informed, hphase] at hinformed
    exact .run hregistered hinformed.1
  | sentMint hphase =>
    rw [Informed, hphase] at hinformed
    exact .run hregistered ⟨hinformed.2.listed, _, List.getElem?_concat_length⟩
  | absorbed =>
    exact .run (hregistered.absorb hw.sound fun _ hlog => (List.mem_filter.1 hlog).1) trivial
  | fetched hphase =>
    refine .run hregistered fun burn hburn => ?_
    exact burnsOf_subset (fun _ hlog => (List.mem_filter.1 hlog).1) (List.mem_filter.1 hburn).1
  | released hphase =>
    rw [Informed, hphase] at hinformed
    exact .run hregistered fun burn hburn => hinformed burn (List.mem_cons_of_mem _ hburn)

theorem process (hw : Base types R w) (ht : Traced types w) (h : Effect types R w a w') :
    Process types w' := by
  have hgrows := grows_effect hw h
  cases h with
  | down => exact ⟨(nomatch ·), (nomatch ·)⟩
  | @mine txs u hrun =>
    have hprocess : ∀ {p}, u.process = p → w.process = p := fun hp => by
      rw [(hw.mine hrun).2.rest] at hp
      exact hp
    refine ⟨fun hp => (ht.indexing (hprocess hp)).later hgrows.later, fun hp => ?_⟩
    obtain ⟨hregistered, hinformed⟩ := ht.running (hprocess hp)
    exact ⟨hregistered.later hgrows.later, hinformed.later hgrows⟩
  | deposit =>
    refine ⟨ht.indexing, fun hp => ?_⟩
    obtain ⟨hregistered, hinformed⟩ := ht.running hp
    exact ⟨hregistered, hinformed.later hgrows⟩
  | restored hdown hload hsome =>
    have hsnapshot : w.file.load.tokens.isEmpty ∨ ∃ registry : TokenRegistry,
        w.file.load.tokens = registry.snapshot ∧ Registered types w.chain registry :=
      holds_load.elim ht.snapshots fun he => .inl (he ▸ Std.TreeMap.isEmpty_emptyc)
    obtain ⟨registry, hreg, hregistered⟩ := hsnapshot.resolve_left (by simp [hsome])
    obtain ⟨restored, hrestored, hsame, hpaired⟩ :=
      TokenRegistry.fromSnapshot_snapshot hregistered.paired
    rw [hreg, hrestored] at hload
    cases hload
    exact .run (hregistered.congr hpaired hsame) trivial
  | scan =>
    refine ⟨fun hp => ?_, (nomatch ·)⟩
    cases hp
    exact .empty
  | scanned hp =>
    refine ⟨fun hp' => ?_, (nomatch ·)⟩
    cases hp'
    exact (ht.indexing hp).absorb hw.sound fun _ hlog => (List.mem_filter.1 hlog).1
  | narrowed hp =>
    refine ⟨fun hp' => ?_, (nomatch ·)⟩
    cases hp'
    exact ht.indexing hp
  | indexed hp => exact .run (persist_chain.symm ▸ ht.indexing hp) trivial
  | rest hp => exact .run (ht.running hp).1 trivial
  | beginDeposits hp | beginWithdrawals hp =>
    have hregistered := (ht.running hp).1
    exact .run hregistered trivial
  | moves hp hm => exact ht.moves hw hp hm
  | _ => exact ⟨ht.indexing, ht.running⟩

/-- The snapshots a step writes list tokens of their coin types. -/
theorem produces_snapshot (ht : Traced types w) {c : Cursors} (h : Produces w c) :
    c.tokens.isEmpty ∨ ∃ registry : TokenRegistry,
      c.tokens = registry.snapshot ∧ Registered types w.chain registry := by
  cases h with
  | default => exact .inl Std.TreeMap.isEmpty_emptyc
  | downgraded => exact .inl Std.TreeMap.isEmpty_emptyc
  | advanced hp => exact .inr ⟨_, rfl, (ht.running hp).1⟩
  | finished hp => exact .inr ⟨_, rfl, (ht.running hp).1⟩
  | indexed hp => exact .inr ⟨_, rfl, ht.indexing hp⟩

/-- A step moves the cursor past minted deposits only. -/
theorem produces_cursor (hw : Base types R w) (hs : Sourced w) (ht : Traced types w)
    {c : Cursors} (h : Produces w c) : ∀ m < c.nextDepositNonce, w.Minted m := by
  cases h with
  | default => exact fun m hm => absurd hm (Nat.not_lt_zero m)
  | downgraded hfile =>
    have hminted := ht.cursors (.file hfile)
    exact hminted
  | advanced hp hseen =>
    intro m hm
    rcases Nat.lt_succ_iff_lt_or_eq.1 hm with hlt | rfl
    · exact ht.cursors (.running hp) m hlt
    · exact seen hw hs ht hp hseen
  | finished hp =>
    have hminted := ht.cursors (.running hp)
    exact hminted
  | indexed hp =>
    have hminted := ht.cursors (.indexing hp)
    exact hminted

theorem effect (hw : Base types R w) (hs : Sourced w) (ht : Traced types w)
    (h : Effect types R w a w') : Traced types w' := by
  have hgrows := grows_effect hw h
  obtain ⟨hindexing, hrunning⟩ := ht.process hw h
  refine ⟨hindexing, hrunning, fun hc => ?_, fun htx => ?_, fun hc m hm => ?_⟩
  · have hsnapshot := (holds_effect hw h hc).elim ht.snapshots ht.produces_snapshot
    exact hsnapshot.imp_right fun ⟨registry, he, hr⟩ => ⟨registry, he, hr.later hgrows.later⟩
  · rcases sent_effect hw h htx with htx | ⟨relayer, hp, hsends⟩
    · obtain ⟨⟨record, hdue, hamount⟩, hbefore⟩ := ht.sent htx
      exact ⟨⟨record, hdue.later hgrows, hamount⟩,
        fun m hm => (hbefore m hm).later hgrows.later⟩
    · have hinformed := (ht.running hp).2
      cases hsends with
      | mint hphase =>
        rw [Informed, hphase] at hinformed
        exact ⟨⟨_, hinformed.later hgrows, rfl⟩,
          fun m hm => (ht.cursors (.running hp) m hm).later hgrows.later⟩
  · have hminted := (holds_effect hw h hc).elim (fun hc => ht.cursors hc m hm)
      fun hc => ht.produces_cursor hw hs hc m hm
    exact hminted.later hgrows.later

end Traced

theorem start_traced (h : Start R w) : Traced types w := by
  obtain ⟨hR, id, predeploy, rfl⟩ := h
  have hnone : ∀ {c : Cursors}, ¬ (fresh R id predeploy).Holds c := by
    intro c hc
    cases hc with
    | running hp => cases hp
    | indexing hp => cases hp
    | file hf => cases hf
    | backup hb => cases hb
  exact ⟨(nomatch ·), (nomatch ·), fun hc => (hnone hc).elim,
    fun h => (List.not_mem_nil h).elim, fun hc => (hnone hc).elim⟩

theorem reachable_traced (h : Reachable (Start R) (enabled (exec types R)) w) :
    Traced types w :=
  h.inv_of (J := fun w => Base types R w ∧ Sourced w)
    (fun _ hr => ⟨reachable_base hr, reachable_sourced hr⟩) (fun _ => start_traced)
    fun _ _ _ hj _ ht hstep => ht.effect hj.1 hj.2 (exec_effect hstep)

end BridgeWorld

end Podseq.Node
