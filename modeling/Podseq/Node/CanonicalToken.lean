import Podseq.Node.RelayerInvariant

/-! # One canonical token for each coin type

The logs fix one token for each coin type: the first one created under any spelling of it. The
scans find that token whatever the ranges they read. `ensure_token` registers the token it
created itself, so it agrees with them as long as no other spelling was there first.
-/
namespace Podseq.Node
open Podseq.Lib Podseq.Move Podseq.Solidity

variable {types : CoinTypeSyntax} {R : EvmAddress} {chain chain' : Chain}
  {tokens tokens' : TokenRegistry} {rpc : Rpc} {disk : Disk} {c c' : Bytes} {t t' : EvmAddress}
  {k : Nat} {logs logs' : List (Nat × Log)}

/-! ## The token the logs fix -/

theorem claims_append : claims types (logs ++ logs') = claims types logs ++ claims types logs' := by
  rw [claims, Chain.creationsIn_append, List.filterMap_append]
  rfl

theorem mem_claims : (c, t) ∈ claims types logs ↔
    ∃ s, (t, s) ∈ Chain.creationsIn logs ∧ types.normalize s = some c := by
  simp only [claims, List.mem_filterMap, Option.map_eq_some_iff, Prod.mk.injEq, Prod.exists]
  grind

theorem claims_subset (h : logs ⊆ logs') (hmem : (c, t) ∈ claims types logs) :
    (c, t) ∈ claims types logs' := by
  obtain ⟨s, hs, hn⟩ := mem_claims.1 hmem
  obtain ⟨log, hlog, hc⟩ := List.mem_filterMap.1 hs
  exact mem_claims.2 ⟨s, List.mem_filterMap.2 ⟨log, h hlog, hc⟩, hn⟩

/-- The first token created under a spelling of `c`. -/
def firstToken (types : CoinTypeSyntax) (chain : Chain) (c : Bytes) : Option EvmAddress :=
  (claims types chain.logs).lookup c

/-- The token that `c` may be mapped to: the first one of its spellings or, for a `type_name`
no spelling can be parsed of, the one listed under it. -/
def Rightful (types : CoinTypeSyntax) (chain : Chain) (c : Bytes) (t : EvmAddress) : Prop :=
  firstToken types chain c = some t ∨
    types.normalize c = none ∧ types.isName c ∧
      chain.contracts.factory.tokenFor c = t ∧ t ≠ .zero

theorem claim_listed (hs : chain.Sound R) (h : (c, t) ∈ claims types chain.logs) :
    ∃ s, types.normalize s = some c ∧ chain.contracts.factory.tokenFor s = t ∧ t ≠ .zero := by
  obtain ⟨s, hmem, hn⟩ := mem_claims.1 h
  exact ⟨s, hn, hs.created.1 hmem⟩

theorem firstToken_claim (h : firstToken types chain c = some t) :
    (c, t) ∈ claims types chain.logs := by
  rw [firstToken, List.lookup_eq_some_iff] at h
  obtain ⟨l, l', hl, -⟩ := h
  rw [hl]
  simp

namespace Rightful

theorem later (h : Rightful types chain c t) (hl : chain.Later chain') :
    Rightful types chain' c t := by
  rcases h with h | ⟨hn, hname, hfor, hne⟩
  · obtain ⟨new, hnew, -⟩ := hl.logs
    rw [firstToken] at h
    exact .inl (by rw [firstToken, hnew, claims_append, List.lookup_append, h, Option.some_or])
  · exact .inr ⟨hn, hname, (hl.tokenFor (hfor.trans_ne hne)).trans hfor, hne⟩

theorem unique (hs : chain.Sound R) (h : Rightful types chain c t)
    (h' : Rightful types chain c t') : t = t' := by
  have hclash : ∀ {t}, firstToken types chain c = some t → types.normalize c = none →
      types.isName c → False := by
    intro t ht hn hname
    obtain ⟨s, hnorm, -⟩ := claim_listed hs (firstToken_claim ht)
    rw [types.normalize_self hname hnorm] at hn
    cases hn
  rcases h with h | ⟨hn, hname, hfor, -⟩ <;> rcases h' with h' | ⟨hn', hname', hfor', -⟩
  · exact Option.some.inj (h.symm.trans h')
  · exact (hclash h hn' hname').elim
  · exact (hclash h' hn hname).elim
  · exact hfor.symm.trans hfor'

/-- The spelling a rightful token is listed under. -/
theorem listed (hs : chain.Sound R) (h : Rightful types chain c t) :
    ∃ s, chain.contracts.factory.tokenFor s = t ∧ t ≠ .zero ∧
      (types.normalize s = some c ∨ s = c ∧ types.normalize c = none) := by
  rcases h with h | ⟨hn, -, hfor, hne⟩
  · obtain ⟨s, hnorm, hfor, hne⟩ := claim_listed hs (firstToken_claim h)
    exact ⟨s, hfor, hne, .inl hnorm⟩
  · exact ⟨c, hfor, hne, .inr ⟨rfl, hn⟩⟩

theorem inj (hs : chain.Sound R) (h : Rightful types chain c t)
    (h' : Rightful types chain c' t) : c = c' := by
  obtain ⟨s, hfor, hne, hcase⟩ := h.listed hs
  obtain ⟨s', hfor', -, hcase'⟩ := h'.listed hs
  obtain rfl := hs.wellFormed.inj (hfor.trans_ne hne) (hfor.trans hfor'.symm)
  grind

end Rightful

/-! ## Registries that follow the logs -/

/-- The registry maps coin types to their rightful tokens, among them every coin type that has
a creation below block `k`. -/
structure Faithful (types : CoinTypeSyntax) (chain : Chain) (tokens : TokenRegistry) (k : Nat) :
    Prop where
  rightful : ∀ {c t}, tokens.tokenFor c = some t → Rightful types chain c t
  covers : ∀ {c t}, (c, t) ∈ claims types (chain.logs.filter fun log => log.1 < k) →
    tokens.tokenFor c ≠ none
  paired : tokens.Paired

namespace Faithful

theorem empty : Faithful types chain .empty 0 where
  rightful h := by simp at h
  covers h := by simp [claims, Chain.creationsIn] at h
  paired := TokenRegistry.empty_paired

theorem later (h : Faithful types chain tokens k) (hl : chain.Later chain')
    (hk : k ≤ chain.head + 1) : Faithful types chain' tokens k where
  rightful ht := (h.rightful ht).later hl
  covers hmem := h.covers (hl.filter_lt hk ▸ hmem)
  paired := h.paired

theorem congr (h : Faithful types chain tokens k) (hp : tokens'.Paired)
    (hsame : ∀ c, tokens'.tokenFor c = tokens.tokenFor c) : Faithful types chain tokens' k where
  rightful ht := h.rightful (hsame _ ▸ ht)
  covers hmem := hsame _ ▸ h.covers hmem
  paired := hp

theorem mono (h : Faithful types chain tokens k) {j : Nat} (hj : j ≤ k) :
    Faithful types chain tokens j where
  rightful := h.rightful
  covers hmem := by
    refine h.covers (claims_subset (fun log hlog => ?_) hmem)
    simp only [List.mem_filter, decide_eq_true_eq] at hlog ⊢
    exact ⟨hlog.1, hlog.2.trans_le hj⟩
  paired := h.paired

/-- Reading a range that starts where the registry stands keeps it faithful, up to the end of
the range. -/
theorem absorb (hs : chain.Sound R) (h : Faithful types chain tokens k) (hi : Nat) :
    Faithful types chain (absorb types tokens (chain.logsIn k hi)) (hi + 1) := by
  have hsplit := filter_lt_append_filter_ge hs.sorted k
  have hrange := filter_lt_append_filter_ge (hs.sorted.filter fun log => k ≤ log.1) (hi + 1)
  have hlogs : ((chain.logs.filter fun log => k ≤ log.1).filter fun log => log.1 < hi + 1) =
      chain.logsIn k hi := by
    rw [Chain.logsIn, List.filter_filter]
    refine List.filter_congr fun log _ => ?_
    rw [Bool.decide_and, Bool.and_comm]
    simp only [Nat.lt_succ_iff]
  rw [hlogs] at hrange
  have hclaims : claims types chain.logs = claims types (chain.logs.filter fun log => log.1 < k) ++
      (claims types (chain.logsIn k hi) ++ claims types ((chain.logs.filter fun log =>
        k ≤ log.1).filter fun log => hi + 1 ≤ log.1)) := by
    rw [← claims_append, ← claims_append, hrange, hsplit]
  have hin : ∀ {c t}, (c, t) ∈ claims types (chain.logsIn k hi) →
      (c, t) ∈ claims types chain.logs := by
    intro c t hmem
    rw [hclaims]
    exact List.mem_append_right _ (List.mem_append_left _ hmem)
  refine ⟨fun {c t} ht => ?_, fun {c t} hmem => ?_, ?_⟩
  · rw [Node.absorb, TokenRegistry.tokenFor_insertAll] at ht
    cases hold : tokens.tokenFor c with
    | some t₀ =>
      rw [hold, Option.some_or, Option.some.injEq] at ht
      exact h.rightful (ht ▸ hold)
    | none =>
      -- Nothing below the range claims `c`, so its first claim of all is in the range.
      have hbelow : (claims types (chain.logs.filter fun log => log.1 < k)).lookup c = none := by
        rw [List.lookup_eq_none_iff]
        intro e he
        by_contra hc
        have hce : c = e.1 := by simpa using hc
        exact h.covers (c := e.1) (t := e.2) he (hce ▸ hold)
      rw [hold, Option.none_or] at ht
      refine .inl ?_
      rw [firstToken, hclaims, List.lookup_append, hbelow, Option.none_or, List.lookup_append,
        ht, Option.some_or]
  · rw [Node.absorb, TokenRegistry.tokenFor_insertAll, Ne, Option.or_eq_none_iff, not_and]
    intro hold hnew
    have hcover : (c, t) ∈ claims types ((chain.logs.filter fun log => log.1 < k) ++
        chain.logsIn k hi) := by
      refine claims_subset (fun log hlog => ?_) hmem
      simp only [Chain.logsIn, List.mem_append, List.mem_filter, decide_eq_true_eq] at hlog ⊢
      rcases Nat.lt_or_ge log.1 k with hlt | hge
      · exact .inl ⟨hlog.1, hlt⟩
      · exact .inr ⟨hlog.1, hge, Nat.le_of_lt_succ hlog.2⟩
    rw [claims_append] at hcover
    rcases List.mem_append.1 hcover with hmem | hmem
    · exact h.covers hmem hold
    · exact absurd hmem (by simpa using List.lookup_eq_none_iff.1 hnew (c, t))
  · refine h.paired.insertAll fun c t hmem c' hc' => ?_
    obtain ⟨s, hnorm, hfor, hne⟩ := claim_listed hs (hin hmem)
    rcases hc' with hc' | hc'
    · obtain ⟨s', hfor', -, hcase⟩ := (h.rightful hc').listed hs
      obtain rfl := hs.wellFormed.inj (hfor.trans_ne hne) (hfor.trans hfor'.symm)
      grind
    · obtain ⟨s', hnorm', hfor', -⟩ := claim_listed hs (hin hc')
      obtain rfl := hs.wellFormed.inj (hfor.trans_ne hne) (hfor.trans hfor'.symm)
      grind

/-- Registering the token listed under a deposited coin type, when no other spelling came
first. -/
theorem record (hs : chain.Sound R) (h : Faithful types chain tokens k)
    (hnone : tokens.tokenFor c = none) (hname : types.isName c)
    (hfor : chain.contracts.factory.tokenFor c = t) (hne : t ≠ .zero)
    (hfirst : ∀ t', firstToken types chain c = some t' → t' = t) :
    Faithful types chain (tokens.record c t) k := by
  have hright : Rightful types chain c t := by
    cases hn : types.normalize c with
    | none => exact .inr ⟨hn, hname, hfor, hne⟩
    | some c' =>
      obtain rfl := types.normalize_name hname hn
      have hclaim : (c', t) ∈ claims types chain.logs :=
        mem_claims.2 ⟨c', hs.created.2 ⟨hfor, hne⟩, hn⟩
      cases hfirst' : firstToken types chain c' with
      | none => exact absurd hclaim (by simpa using List.lookup_eq_none_iff.1 hfirst' (c', t))
      | some t' => exact .inl (hfirst t' hfirst' ▸ hfirst')
  have hrecord : (tokens.insert c t).1 = tokens.record c t := by
    rw [TokenRegistry.insert_of_none hnone]
  refine ⟨fun {c' t'} ht => ?_, fun {c' t'} hmem => ?_, ?_⟩
  · rw [TokenRegistry.tokenFor_record] at ht
    split at ht
    · cases ht
      subst c'
      exact hright
    · exact h.rightful ht
  · rw [TokenRegistry.tokenFor_record]
    split
    · simp
    · exact h.covers hmem
  · rw [← hrecord]
    exact h.paired.insert fun c' hc' => (h.rightful hc').inj hs hright

end Faithful

namespace BridgeWorld

/-! ## The relayer's registry along a run -/

variable {w w' : BridgeWorld} {a : Action} {relayer : Relayer}

/-- What the task relies on in each phase. -/
def PhaseOk (types : CoinTypeSyntax) (w : BridgeWorld) (relayer : Relayer) : Prop :=
  let filed (record : DepositRecord) : Prop :=
    w.vault.deposits relayer.cursors.nextDepositNonce = some record
  match relayer.phase with
  | .creating _ record => filed record ∧ relayer.tokens.tokenFor record.coinType = none
  | .awaitCreated _ record i => filed record ∧ relayer.tokens.tokenFor record.coinType = none ∧
    w.sent[i]? = some (.create record.coinType)
  | .readLast _ record token => filed record ∧
    relayer.tokens.tokenFor record.coinType = some token
  | .readAny _ record token _ => filed record ∧
    relayer.tokens.tokenFor record.coinType = some token
  | .minting _ record token => filed record ∧
    relayer.tokens.tokenFor record.coinType = some token
  | .fetching latest => Faithful types w.chain relayer.tokens (latest + 1)
  | .releasing latest _ => Faithful types w.chain relayer.tokens (latest + 1)
  | _ => True

/-- Every registry, in memory or on disk, follows the logs, and so does what was done with
them. -/
structure Agreed (types : CoinTypeSyntax) (w : BridgeWorld) : Prop where
  indexing : ∀ {cursors head tokens chunk start},
    w.process = .indexing cursors head tokens chunk start → Faithful types w.chain tokens start
  running : ∀ {relayer}, w.process = .running relayer →
    Faithful types w.chain relayer.tokens relayer.cursors.nextL2Block ∧ PhaseOk types w relayer
  snapshots : ∀ {c}, w.Holds c → c.tokens.isEmpty ∨ ∃ registry : TokenRegistry,
    c.tokens = registry.snapshot ∧ Faithful types w.chain registry c.nextL2Block
  minted : ∀ {token recipient amount n}, .mint token recipient amount n ∈ w.sent →
    ∃ record, w.vault.deposits n = some record ∧ Rightful types w.chain record.coinType token
  served : ∀ {c burn}, (c, burn) ∈ w.served → Rightful types w.chain c burn.token

theorem PhaseOk.later (h : PhaseOk types w relayer) (hg : Grows w w')
    (hrange : ∀ {latest}, range relayer.phase = some latest → latest ≤ w.chain.head) :
    PhaseOk types w' relayer := by
  unfold PhaseOk at h ⊢
  split at h <;> simp only
  · exact h.imp_left hg.deposits
  · obtain ⟨hd, ht, hs⟩ := h
    exact ⟨hg.deposits hd, ht, hg.sent_getElem hs⟩
  · exact h.imp_left hg.deposits
  · exact h.imp_left hg.deposits
  · exact h.imp_left hg.deposits
  · rename_i hp
    exact h.later hg.later (Nat.succ_le_succ (hrange (by rw [hp]; rfl)))
  · rename_i hp
    exact h.later hg.later (Nat.succ_le_succ (hrange (by rw [hp]; rfl)))

/-- The snapshots a step writes follow the logs. -/
theorem Agreed.produces (hb : Bounded w) (hw : Agreed types w) {c : Cursors}
    (h : Produces w c) : c.tokens.isEmpty ∨ ∃ registry : TokenRegistry,
      c.tokens = registry.snapshot ∧ Faithful types w.chain registry c.nextL2Block := by
  cases h with
  | default => exact .inl Std.TreeMap.isEmpty_emptyc
  | downgraded => exact .inl Std.TreeMap.isEmpty_emptyc
  | advanced hp => exact .inr ⟨_, rfl, (hw.running hp).1⟩
  | finished hp hr =>
    have hphase := (hw.running hp).2
    cases hr with
    | unlisted hr | done hr =>
      rw [PhaseOk, hr] at hphase
      exact .inr ⟨_, rfl, hphase⟩
  | indexed hp hlt =>
    have hstart := (hb.indexing hp).2
    obtain rfl := Nat.le_antisymm hstart hlt
    exact .inr ⟨_, rfl, hw.indexing hp⟩

/-- When the relayer takes the token of its own `createBridge` receipt, no other spelling of
the coin type had a token before. -/
def ownTokenFirst (types : CoinTypeSyntax) (w : BridgeWorld) (a : Action) : Bool :=
  match a, w.process with
  | .relay .ok _, .running ⟨_, _, .awaitCreated _ record i⟩ =>
    match (w.receipts i).bind Receipt.createdToken with
    | some token => (firstToken types w.chain record.coinType).all (· == token)
    | none => true
  | _, _ => true

theorem ownTokenFirst_created {latest i : Nat} {record : DepositRecord} {receipt : Receipt}
    {token : EvmAddress} (hok : ownTokenFirst types w (.relay .ok disk))
    (hp : w.process = .running relayer) (hph : relayer.phase = .awaitCreated latest record i)
    (hr : w.receipts i = some receipt) (htoken : receipt.createdToken = some token) :
    ∀ t', firstToken types w.chain record.coinType = some t' → t' = token := by
  obtain ⟨cursors, tokens, phase⟩ := relayer
  dsimp only at hph
  subst hph
  intro t' ht'
  simp only [ownTokenFirst, hp, hr, Option.bind_some, htoken, ht', Option.all_some,
    beq_iff_eq] at hok
  exact hok

/-- What the agreement asks of the process. -/
structure ProcessOk (types : CoinTypeSyntax) (w : BridgeWorld) : Prop where
  indexing : ∀ {cursors head tokens chunk start},
    w.process = .indexing cursors head tokens chunk start → Faithful types w.chain tokens start
  running : ∀ {relayer}, w.process = .running relayer →
    Faithful types w.chain relayer.tokens relayer.cursors.nextL2Block ∧ PhaseOk types w relayer

theorem ProcessOk.run (hfaithful : Faithful types w.chain relayer.tokens
      relayer.cursors.nextL2Block) (hphase : PhaseOk types (w.run relayer) relayer) :
    ProcessOk types (w.run relayer) := by
  refine ⟨(nomatch ·), fun hp => ?_⟩
  cases hp
  exact ⟨hfaithful, hphase⟩

/-- One request keeps the running task's registry faithful. -/
theorem Agreed.moves (hbase : Base types R w) (hb : Bounded w) (hw : Agreed types w)
    (hok : ownTokenFirst types w (.relay rpc disk)) (hp : w.process = .running relayer)
    (h : Moves types w relayer rpc w') : ProcessOk types w' := by
  obtain ⟨hfaithful, hphase⟩ := hw.running hp
  cases h with
  | stay => exact ⟨hw.indexing, hw.running⟩
  | idle | lostCreate | sentMint | lostMint | executed => exact .run hfaithful trivial
  | found hph hrec htoken => exact .run hfaithful ⟨hrec, htoken⟩
  | lacking hph hrec hnone => exact .run hfaithful ⟨hrec, hnone⟩
  | sentCreate hph =>
    rw [PhaseOk, hph] at hphase
    exact .run hfaithful ⟨hphase.1, hphase.2, List.getElem?_concat_length⟩
  | created hph hrpc hr hs htoken =>
    subst hrpc
    have hfirst := ownTokenFirst_created hok hp hph hr htoken
    rw [PhaseOk, hph] at hphase
    obtain ⟨hrec, hnone, hsent⟩ := hphase
    obtain ⟨tx, htx, hconf⟩ := hbase.confirmed hr hs
    rw [hsent] at htx
    cases htx
    obtain ⟨hfor, hne⟩ := hconf _ htoken
    rw [ensureToken_of_none hnone]
    refine .run (hfaithful.record hbase.sound hnone (hbase.named hrec) hfor hne hfirst) ?_
    exact ⟨hrec, by rw [TokenRegistry.tokenFor_record, if_pos rfl]⟩
  | readLast hph | unminted hph | fetched hph | released hph =>
    rw [PhaseOk, hph] at hphase
    exact .run hfaithful hphase
  | minted | confirmed => exact .run (persist_chain.symm ▸ hfaithful) trivial
  | @absorbed latest hph =>
    have habsorb := hfaithful.absorb hbase.sound latest
    exact .run (habsorb.mono (hb.running hp (by rw [hph]; rfl)).2) habsorb
  | unlisted hph | done hph =>
    rw [PhaseOk, hph] at hphase
    exact .run (persist_chain.symm ▸ hphase) trivial

theorem Agreed.process (hbase : Base types R w) (hb : Bounded w) (hw : Agreed types w)
    (hok : ownTokenFirst types w a) (h : Effect types R w a w') : ProcessOk types w' := by
  have hgrows := grows_effect hbase h
  cases h with
  | down => exact ⟨(nomatch ·), (nomatch ·)⟩
  | @mine txs u hrun =>
    have hprocess : ∀ {p}, u.process = p → w.process = p := fun hp => by
      rw [(hbase.mine hrun).2.rest] at hp
      exact hp
    refine ⟨fun hp => ?_, fun hp => ?_⟩
    · have hstart := hb.indexing (hprocess hp)
      exact (hw.indexing (hprocess hp)).later hgrows.later (hstart.2.trans (by omega))
    · obtain ⟨hfaithful, hphase⟩ := hw.running (hprocess hp)
      exact ⟨hfaithful.later hgrows.later (hb.cursors (.running (hprocess hp))),
        hphase.later hgrows fun hr => (hb.running (hprocess hp) hr).1⟩
  | deposit =>
    refine ⟨hw.indexing, fun hp => ?_⟩
    obtain ⟨hfaithful, hphase⟩ := hw.running hp
    exact ⟨hfaithful, hphase.later hgrows fun hr => (hb.running hp hr).1⟩
  -- the snapshot was taken of a registry that agreed with the chain up to the cursor
  | restored hdown hload hsome =>
    have hsnapshot : ∃ registry : TokenRegistry, w.file.load.tokens = registry.snapshot ∧
        Faithful types w.chain registry w.file.load.nextL2Block := by
      have hc := holds_load.elim hw.snapshots fun he => hw.produces hb (he ▸ .default)
      exact hc.resolve_left fun he => by rw [hsome] at he; cases he
    obtain ⟨registry, hreg, hfaithful⟩ := hsnapshot
    obtain ⟨restored, hrestored, hsame, hpaired⟩ :=
      TokenRegistry.fromSnapshot_snapshot hfaithful.paired
    rw [hreg, hrestored] at hload
    cases hload
    exact .run (hfaithful.congr hpaired hsame) trivial
  | scan =>
    refine ⟨fun hp => ?_, (nomatch ·)⟩
    cases hp
    exact .empty
  | @scanned _ _ _ _ _ _ _ _ stop hp =>
    have habsorb := (hw.indexing hp).absorb hbase.sound stop
    refine ⟨fun hp' => ?_, (nomatch ·)⟩
    cases hp'
    exact habsorb
  | narrowed hp =>
    refine ⟨fun hp' => ?_, (nomatch ·)⟩
    cases hp'
    exact hw.indexing hp
  | indexed hp hlt =>
    have hfaithful := (hw.indexing hp).mono hlt
    exact .run (persist_chain.symm ▸ hfaithful) trivial
  | rest hp => exact .run (hw.running hp).1 trivial
  | beginDeposits hp | beginWithdrawals hp =>
    have hfaithful := (hw.running hp).1
    exact .run hfaithful trivial
  | moves hp hm => exact hw.moves hbase hb hok hp hm
  | _ => exact ⟨hw.indexing, hw.running⟩

theorem Agreed.effect (hbase : Base types R w) (hb : Bounded w) (hw : Agreed types w)
    (hok : ownTokenFirst types w a) (h : Effect types R w a w') : Agreed types w' := by
  have hgrows := grows_effect hbase h
  obtain ⟨hindexing, hrunning⟩ := hw.process hbase hb hok h
  refine ⟨hindexing, hrunning, fun hc => ?_, fun htx => ?_, fun he => ?_⟩
  · have hc' := holds_effect hbase h hc
    refine (hc'.elim hw.snapshots (hw.produces hb)).imp_right fun ⟨registry, hr, hf⟩ => ?_
    exact ⟨registry, hr, hf.later hgrows.later (hc'.elim hb.cursors hb.produces)⟩
  · rcases sent_effect hbase h htx with htx | ⟨relayer, hp, hs⟩
    · obtain ⟨record, hrec, hright⟩ := hw.minted htx
      exact ⟨record, hgrows.deposits hrec, hright.later hgrows.later⟩
    · obtain ⟨hfaithful, hphase⟩ := hw.running hp
      cases hs with
      | mint hph =>
        rw [PhaseOk, hph] at hphase
        exact ⟨_, hgrows.deposits hphase.1, (hfaithful.rightful hphase.2).later hgrows.later⟩
  · rcases served_effect hbase h he with he | ⟨relayer, hp, hs⟩
    · exact (hw.served he).later hgrows.later
    · obtain ⟨hfaithful, -⟩ := hw.running hp
      cases hs with
      | head hph hcoin =>
        exact (hfaithful.rightful ((hfaithful.paired _ _).1 hcoin)).later hgrows.later

theorem start_agreed (h : Start R w) : Agreed types w := by
  obtain ⟨hR, id, predeploy, rfl⟩ := h
  refine ⟨(nomatch ·), (nomatch ·), fun hc => ?_, fun h => (List.not_mem_nil h).elim,
    fun h => (List.not_mem_nil h).elim⟩
  cases hc with
  | running hp => cases hp
  | indexing hp => cases hp
  | file hf => cases hf
  | backup hb => cases hb

/-- The runs in which the relayer's own tokens come first. -/
abbrev CleanStep (types : CoinTypeSyntax) (R : EvmAddress) :=
  guarded (fun w a => ownTokenFirst types w a) (enabled (exec types R))

theorem reachable_agreed (h : Reachable (Start R) (CleanStep types R) w) : Agreed types w :=
  h.inv_of (J := fun w => Base types R w ∧ Bounded w)
    (fun _ hr => ⟨reachable_base hr.of_guarded, reachable_bounded hr.of_guarded⟩)
    (fun _ => start_agreed)
    fun _ _ _ hj _ hw hs => hw.effect hj.1 hj.2 hs.1 (exec_effect hs.2)

/-! ## The canonical token -/

def registry (w : BridgeWorld) : TokenRegistry :=
  match w.process with
  | .down => .empty
  | .indexing _ _ tokens _ _ => tokens
  | .running relayer => relayer.tokens

/-- The relayer deals with `t` as the token of the coin type `c`. -/
inductive DealsWith (w : BridgeWorld) (c : Bytes) (t : EvmAddress) : Prop
  | mapped : w.registry.tokenFor c = some t → DealsWith w c t
  | minted {recipient amount n record} : .mint t recipient amount n ∈ w.sent →
      w.vault.deposits n = some record → record.coinType = c → DealsWith w c t
  | honoured {burn} : (c, burn) ∈ w.served → burn.token = t → DealsWith w c t

theorem DealsWith.rightful (hw : Agreed types w) (h : w.DealsWith c t) :
    Rightful types w.chain c t := by
  cases h with
  | mapped h =>
    unfold registry at h
    split at h
    · simp at h
    · exact (hw.indexing ‹_›).rightful h
    · exact (hw.running ‹_›).1.rightful h
  | minted hsent hrec hcoin =>
    obtain ⟨record, hrec', hright⟩ := hw.minted hsent
    rw [hrec] at hrec'
    cases hrec'
    exact hcoin ▸ hright
  | honoured hserved ht => exact ht ▸ hw.served hserved

/-- The token of a coin type never changes: not in the registry, nor in what the relayer mints
on or honours burns of. -/
theorem dealsWith_unique {as : List Action} (hw : Reachable (Start R) (CleanStep types R) w)
    (hrun : Run (CleanStep types R) w as w') (h : w.DealsWith c t) (h' : w'.DealsWith c t') :
    t' = t := by
  have hbase := reachable_base (hw.extend hrun).of_guarded
  have hlater := later_run hw.of_guarded (hrun.mono fun _ _ _ hs => hs.2)
  have hright := h.rightful (reachable_agreed hw)
  have hright' := h'.rightful (reachable_agreed (hw.extend hrun))
  exact hright'.unique hbase.sound (hright.later hlater)

/-! ## A twin that came first -/

/-- `0x2::sui::SUI` as `type_name` spells it. -/
def suiName : Bytes := List.replicate 63 48 ++ [50, 58, 58, 115, 117, 105, 58, 58, 83, 85, 73]

/-- The same type with a short address. -/
def suiShort : Bytes := [48, 120, 50, 58, 58, 115, 117, 105, 58, 58, 83, 85, 73]

/-- The relayer starts, and `sui` is deposited after `before`. -/
def firstRelay (before : List Inclusion) : List Action :=
  [.boot .ok, .index .ok .written, .index .ok .written, .mine before,
    .deposit suiName 5 (EvmAddress.repeated 7).val, .relayDeposits .ok, .relay .ok .written,
    .relay .ok .written, .mine [.relayed 0 (.repeated 3)], .relay .ok .written]

def relayedFirst (before : List Inclusion) : BridgeWorld :=
  (execAll (exec (.single suiName suiShort) (.repeated 1))
    (fresh (.repeated 1) 0 (.repeated 9)) (firstRelay before)).getD
      (fresh (.repeated 1) 0 (.repeated 9))

def restartWithoutFile : List Action :=
  [.crash, .loseFile, .boot .ok, .index .ok .written, .index .ok .written]

/-- After a restart without the file the registry has the same token again. -/
theorem dealsWith_unique_restart : ∃ w' : BridgeWorld, w'.DealsWith suiName (.repeated 3) ∧
    ∀ t', w'.DealsWith suiName t' → t' = .repeated 3 := by
  have hfirst : Run (CleanStep (.single suiName suiShort) (.repeated 1))
      (fresh (.repeated 1) 0 (.repeated 9)) (firstRelay []) (relayedFirst []) :=
    run_of_execOk rfl
  have hagain : Run (CleanStep (.single suiName suiShort) (.repeated 1)) (relayedFirst [])
      restartWithoutFile _ := run_of_execOk rfl
  have hstart : Start (.repeated 1) (fresh (.repeated 1) 0 (.repeated 9)) :=
    ⟨by decide, 0, .repeated 9, rfl⟩
  have hmapped : (relayedFirst []).DealsWith suiName (.repeated 3) := .mapped rfl
  exact ⟨_, .mapped rfl, fun t' h' => dealsWith_unique ⟨_, _, hstart, hfirst⟩ hagain hmapped h'⟩

/-- A twin with another spelling was created before the relayer's own token: the relayer
registers its own, and the twin once it has lost its file. -/
theorem twin_replaces_own : ¬ ∀ (types : CoinTypeSyntax) (R : EvmAddress) (w w' : BridgeWorld)
    (as : List Action) (c : Bytes) (t t' : EvmAddress),
    Reachable (Start R) (enabled (exec types R)) w → Run (enabled (exec types R)) w as w' →
    w.DealsWith c t → w'.DealsWith c t' → t' = t := by
  intro hclaim
  let twin : Inclusion := .outside (.repeated 8) (.repeated 2) (.createBridge [] [] suiShort)
  have hfirst : Run (enabled (exec (.single suiName suiShort) (.repeated 1)))
      (fresh (.repeated 1) 0 (.repeated 9)) (firstRelay [twin]) (relayedFirst [twin]) :=
    run_of_execAll rfl
  have hagain : Run (enabled (exec (.single suiName suiShort) (.repeated 1)))
      (relayedFirst [twin]) restartWithoutFile _ := run_of_execAll rfl
  have hstart : Start (.repeated 1) (fresh (.repeated 1) 0 (.repeated 9)) :=
    ⟨by decide, 0, .repeated 9, rfl⟩
  have hsame := hclaim _ _ _ _ _ suiName (.repeated 3) (.repeated 2) ⟨_, _, hstart, hfirst⟩
    hagain (.mapped rfl) (.mapped rfl)
  exact absurd hsame (by decide)

end BridgeWorld

end Podseq.Node
