import Podseq.Node.RelayWire

/-! # The relayer over the wire, step for step

What the task makes of an answer is what a relayer that reads the state makes of the state. With
that for each request, and with everything else left to happen as it happens, the two go through
the same runs.
-/
namespace Podseq.Node
open Podseq.Lib Podseq.Move Podseq.Solidity LedgerObjects LedgerReads VaultReads L2Rpc

/-- The objects have ids of their own and are served under them, with some count of coins in the
bag; the hash tells the events apart, and coin types are text. -/
structure Wire.Sound (types : CoinTypeSyntax) (net : Wire) : Prop where
  distinct : net.ids.Distinct
  serves : ∀ vault, Sized vault →
    ∃ coins, Serves (net.get vault) net.ids.object (stored net.ids vault coins)
  apart : SignaturesApart net.keccak
  text : TextTypes types

theorem length_untilColons (s : Bytes) : (untilColons s).length ≤ s.length := by
  fun_induction untilColons s with
  | case1 => exact Nat.zero_le _
  | case2 b rest _ ih => exact Nat.succ_le_succ ih
  | case3 => exact Nat.le_refl _

/-- What a creation logs of a type name can be addressed. -/
theorem threeStrings_metadata {c : Bytes} (hc : c.length ≤ Bcs.maxSequenceLength) :
    (threeStrings c (deriveTokenMetadata c).1 (deriveTokenMetadata c).2).length ≤ u64Max := by
  have hsymbol : (deriveTokenMetadata c).2.length ≤ c.length := by
    have hle := length_untilColons c.reverse
    rwa [← List.length_reverse, @List.length_reverse _ c] at hle
  have hname : (deriveTokenMetadata c).1 = c := rfl
  rw [length_threeStrings, length_stringTail, length_stringTail, length_stringTail, hname]
  simp only [Bcs.maxSequenceLength, u64Max] at hc ⊢
  omega

namespace WireWorld.Decodes

variable {types : CoinTypeSyntax} {net : Wire} {R : EvmAddress} {u : WireWorld} {w : BridgeWorld}
  {cursors : Cursors} {tokens : TokenRegistry} {phase : WirePhase} {phase' : Phase}
  {burns : List Burn} {rpc : Rpc} {disk : Disk} {latest tx : Nat} {record : DepositRecord}
  {token : EvmAddress}

/-! ## The reads of the vault -/

theorem relayDeposits (hnet : net.Sound types) (hw : BridgeWorld.Readable types R w)
    (h : u.Decodes net w) :
    (u.relayDeposits net ⟨cursors, tokens, net.ids.deposits, .idle⟩ rpc).Decodes net
      (w.relayDeposits ⟨cursors, tokens, .idle⟩ rpc) := by
  cases rpc with
  | ok =>
    have hsized : Sized u.world.vault := h.vault ▸ hw.sized
    obtain ⟨_, hserves⟩ := hnet.serves _ hsized
    have hstatus : vaultStatus (u.get net .ok) net.ids = _ :=
      vaultStatus_eq hserves hnet.distinct hsized
    simp only [WireWorld.relayDeposits, hstatus, BridgeWorld.relayDeposits, h.vault]
    exact h.run .nil
  | failed | lost => exact h.idle

/-- The deposit under the cursor is read as it was filed, and its coin type is text. -/
theorem readDeposit (hnet : net.Sound types) (hw : BridgeWorld.Readable types R w)
    (h : u.Decodes net w) (hlatest : latest ≤ u64Max) :
    (u.readDeposit net ⟨cursors, tokens, net.ids.deposits, phase⟩ latest rpc).Decodes net
      (w.readDeposit ⟨cursors, tokens, phase'⟩ latest rpc) := by
  unfold WireWorld.readDeposit BridgeWorld.readDeposit
  dsimp only
  by_cases hdone : latest ≤ cursors.nextDepositNonce
  · rw [if_pos hdone, if_pos hdone]
    exact h.idle
  · rw [if_neg hdone, if_neg hdone]
    cases rpc with
    | failed | lost => exact h.idle
    | ok =>
      have hsized : Sized u.world.vault := h.vault ▸ hw.sized
      obtain ⟨_, hserves⟩ := hnet.serves _ hsized
      have hread : depositAt (u.get net .ok) net.ids net.ids.deposits cursors.nextDepositNonce =
          .ok (u.world.vault.deposits cursors.nextDepositNonce) :=
        depositAt_eq hserves hnet.distinct hsized (by omega)
      rw [hread, ← h.vault]
      cases hrecord : w.vault.deposits cursors.nextDepositNonce with
      | none => exact h.idle
      | some record =>
        obtain ⟨text, htext⟩ := hnet.text.named (hw.base.named hrecord)
        simp only [← htext, fromUtf8_utf8]
        cases tokens.tokenFor (Bcs.utf8 text) with
        | none => exact h.run .nil
        | some token => exact h.run .nil

/-! ## Sending, and receipts -/

theorem sendTx {tx : RelayTx} {next : Nat → WirePhase} (h : u.Decodes net w)
    (hnext : ∀ n, List.Forall₂ Reads (next n).logs []) :
    (u.sendTx ⟨cursors, tokens, net.ids.deposits, phase⟩ tx next rpc).Decodes net
      (w.sendTx ⟨cursors, tokens, phase'⟩ tx (fun n => (next n).decode []) rpc) := by
  cases rpc with
  | ok =>
    unfold WireWorld.sendTx BridgeWorld.sendTx
    rw [← h.sent]
    exact h.send.run (hnext w.sent.length)
  | failed => exact h.idle
  | lost => exact h.send.idle

theorem ensureToken (h : u.Decodes net w) :
    (u.ensureToken ⟨cursors, tokens, net.ids.deposits, phase⟩ latest record token).Decodes net
      (w.ensureToken ⟨cursors, tokens, phase'⟩ latest record token) := by
  unfold WireWorld.ensureToken BridgeWorld.ensureToken
  obtain ⟨tokens', taken⟩ := tokens.insert record.coinType token
  cases taken with
  | true => exact h.run .nil
  | false =>
    dsimp only
    cases tokens'.tokenFor record.coinType with
    | none => exact h.idle
    | some canonical => exact h.run .nil

/-- A receipt tells of success and failure. -/
theorem pollReceipt {success : RpcReceipt → WireWorld} {success' : Receipt → BridgeWorld}
    (h : u.Decodes net w)
    (hsuccess : ∀ receipt, w.receipts tx = some receipt → receipt.success →
      (success (rpcReceipt net.keccak net.factory receipt)).Decodes net (success' receipt)) :
    (u.pollReceipt net ⟨cursors, tokens, net.ids.deposits, phase⟩ tx rpc success).Decodes net
      (w.pollReceipt ⟨cursors, tokens, phase'⟩ tx rpc success') := by
  cases rpc with
  | failed | lost => exact h.idle
  | ok =>
    unfold WireWorld.pollReceipt BridgeWorld.pollReceipt
    rw [← h.receipts]
    cases hreceipt : w.receipts tx with
    | none => exact h.idle
    | some receipt =>
      simp only [Rpc.answer, Option.map_some, Except.bind, optionResult,
        ensureReceiptSuccess_rpcReceipt]
      cases hs : receipt.success with
      | false => exact h.idle
      | true => exact hsuccess receipt hreceipt hs

/-! ## The token of a receipt -/

/-- The token is read off the receipt of the creation that the relayer sent. -/
theorem createdToken_eq (hnet : net.Sound types) (hw : BridgeWorld.Readable types R w) {n : Nat}
    {receipt : Receipt} (hrecord : w.vault.deposits n = some record)
    (hsent : w.sent[tx]? = some (.create record.coinType))
    (hreceipt : w.receipts tx = some receipt) (hsuccess : receipt.success) :
    createdToken net (rpcReceipt net.keccak net.factory receipt) = receipt.createdToken := by
  have hname := hw.base.named hrecord
  obtain ⟨text, htext⟩ := hnet.text.named hname
  obtain ⟨_, chain, created, htx, rfl⟩ := hw.executed.receipt hreceipt
  rw [hsent] at htx
  cases htx
  obtain ⟨contracts, logs, hexec, hx⟩ | hx :=
    chain.execute_cases R created (RelayTx.create record.coinType).toCall
  · rw [hx]
    obtain ⟨-, -, -, -, -, -, hr⟩ := Contracts.createBridge_eq_ok.1 hexec
    cases hr
    have hother : topic0 net.keccak (.bridge created (.relayerChanged .zero
        chain.contracts.factory.relayer)) ≠ createdTopic net.keccak := fun heq => by
      cases (topic0_created hnet.apart).1 heq
    obtain ⟨e, he⟩ := @parseBridgeCreatedLog_other net.keccak net.factory _ hother
    have hread := @parseBridgeCreatedLog_rpcLog net.keccak net.factory created record.coinType
      _ _ (threeStrings_metadata (hnet.text.short _ hname))
    rw [show fromUtf8 record.coinType = .ok text from htext ▸ fromUtf8_utf8 text] at hread
    rw [createdToken, rpcReceipt]
    simp only [List.map_cons, List.map_nil, List.findSome?_cons, he, hread]
    rfl
  · rw [hx] at hsuccess
    cases hsuccess

/-! ## The mint cursor -/

theorem lastMinted (hw : BridgeWorld.Readable types R w) (h : u.Decodes net w)
    (hlisted : w.chain.Listed token) : u.lastMinted token rpc = w.readLast token rpc := by
  cases rpc with
  | failed | lost => rfl
  | ok =>
    unfold WireWorld.lastMinted BridgeWorld.readLast
    rw [← h.chain]
    cases hb : w.chain.contracts.bridges token with
    | none =>
      simp only [Rpc.answer, callLastMinted, hb]
      rfl
    | some bridge =>
      simp only [Rpc.answer, callLastMinted, hb, ethCallU64_word (hw.lastMinted hlisted hb)]

theorem mintedAny {last nonce : Nat} (h : u.Decodes net w) :
    (u.mintedAny token rpc && decide (nonce ≤ last)) = w.alreadyMinted token last nonce rpc := by
  cases rpc with
  | failed | lost => rfl
  | ok =>
    unfold WireWorld.mintedAny BridgeWorld.alreadyMinted
    rw [← h.chain]
    cases hb : w.chain.contracts.bridges token with
    | none =>
      simp only [Rpc.answer, callMintedAny, hb]
      rfl
    | some bridge => simp only [Rpc.answer, callMintedAny, hb, ethCallBool_word]

/-! ## The logs -/

/-- A range is absorbed as the creations it has. -/
theorem absorbRange (hnet : net.Sound types) (h : u.Decodes net w) (hw : Encodable w.chain)
    {lo hi : Nat} : u.absorbRange types net tokens .ok lo hi =
      .ok (absorb types tokens (w.chain.logsIn lo hi),
        (Chain.creationsIn (w.chain.logsIn lo hi)).length) := by
  have hlogs : getLogs net.keccak net.factory w.chain [net.factory] (createdTopic net.keccak)
      lo hi = _ := getLogs_created hnet.apart
  have hcreations := @filterMap_creation types net.keccak net.factory hnet.text
    (w.chain.logsIn lo hi) fun log hlog => hw.2 log (List.mem_filter.1 hlog).1
  simp only [WireWorld.absorbRange, ← h.chain, Rpc.answer, hlogs, absorbCreations, ok_bind,
    absorb_eq_insertAll, length_creations, hcreations, absorb]
  rfl

/-- One log is processed as the burn that it is read as. -/
theorem processWithdrawalLog (hnet : net.Sound types) (h : u.Decodes net w) {log : RpcLog}
    {burn : Burn} {logs : List RpcLog} (hlog : Reads log burn)
    (hlogs : List.Forall₂ Reads logs burns) :
    (u.processWithdrawalLog types ⟨cursors, tokens, net.ids.deposits, phase⟩ latest log logs
      rpc).Decodes net
      (w.release types ⟨cursors, tokens, phase'⟩ latest burn burns rpc) := by
  unfold WireWorld.processWithdrawalLog BridgeWorld.release
  simp only [hlog.1, hlog.2]
  cases tokens.coinFor burn.token with
  | none => exact h.idle
  | some coin =>
    dsimp only
    cases hcoin : fromUtf8 coin with
    | error e =>
      simp only [hnet.text.parse_error hcoin]
      cases rpc <;> exact h.idle
    | ok text =>
      simp only [utf8_of_fromUtf8 hcoin]
      cases types.parse coin with
      | none => cases rpc <;> exact h.idle
      | some T =>
        rw [← h.vault]
        cases rpc with
        | failed => exact h.idle
        | ok =>
          dsimp only
          cases w.vault.doWithdraw T _ burn.amount burn.nonce with
          | error e => exact h.idle
          | ok result => exact h.withdrawn.run hlogs
        | lost =>
          dsimp only
          cases w.vault.doWithdraw T _ burn.amount burn.nonce with
          | error e => exact h.idle
          | ok result => exact h.withdrawn.idle

/-! ## The steps of a pass -/

theorem relayWithdrawals (he : Encodable w.chain) (h : u.Decodes net w) :
    (u.relayWithdrawals ⟨cursors, tokens, net.ids.deposits, .idle⟩ rpc).Decodes net
      (w.relayWithdrawals ⟨cursors, tokens, .idle⟩ rpc) := by
  cases rpc with
  | failed | lost => exact h.idle
  | ok =>
    unfold WireWorld.relayWithdrawals BridgeWorld.relayWithdrawals
    simp only [Rpc.answer, ← h.chain, parseHexQty_quantity he.1]
    split
    · exact h.idle
    · exact h.run .nil

/-- The next request of a pass. -/
theorem relay (hnet : net.Sound types) (hw : BridgeWorld.Readable types R w)
    (he : Encodable w.chain) (h : u.Decodes net w) (hlogs : List.Forall₂ Reads phase.logs burns)
    (hp : w.process = .running ⟨cursors, tokens, phase.decode burns⟩) :
    (u.relay types net ⟨cursors, tokens, net.ids.deposits, phase⟩ rpc disk).Decodes net
      (w.relay types ⟨cursors, tokens, phase.decode burns⟩ rpc disk) := by
  have hinformed := (hw.traced.running hp).2
  cases phase with
  | idle => exact h
  | deposits latest =>
    exact h.readDeposit hnet hw (hw.counted _ latest hp rfl)
  | creating latest record => exact h.sendTx fun _ => .nil
  -- both relayers take the token from the same receipt
  | awaitCreated latest record tx =>
    obtain ⟨hrecord, hsent⟩ := hinformed
    refine h.pollReceipt fun receipt hreceipt hsuccess => ?_
    rw [createdToken_eq hnet hw hrecord hsent hreceipt hsuccess]
    cases receipt.createdToken with
    | none => exact h.idle
    | some token => exact h.ensureToken
  | readLast latest record token =>
    have hlast : u.lastMinted token rpc = _ := h.lastMinted hw hinformed.2.listed
    unfold WireWorld.relay BridgeWorld.relay
    dsimp only [WirePhase.decode]
    rw [hlast]
    exact h.run .nil
  -- a read that failed counts as nothing minted on both sides
  | readAny latest record token last =>
    have hany : (u.mintedAny token rpc && decide (cursors.nextDepositNonce ≤ last)) = _ :=
      h.mintedAny
    unfold WireWorld.relay BridgeWorld.relay
    dsimp only [WirePhase.decode]
    rw [hany]
    cases w.alreadyMinted token last cursors.nextDepositNonce rpc with
    | true => exact h.persist.run .nil
    | false => exact h.run .nil
  | minting latest record token =>
    unfold WireWorld.relay BridgeWorld.relay
    dsimp only [WirePhase.decode]
    cases FixedBytes.ofBytes? 20 record.recipientL2 with
    | none => exact h.idle
    | some recipient => exact h.sendTx fun _ => .nil
  | awaitMinted latest record token tx => exact h.pollReceipt fun _ _ _ => h.persist.run .nil
  | absorbing latest =>
    cases rpc with
    | failed | lost => exact h.idle
    | ok =>
      unfold WireWorld.relay BridgeWorld.relay
      dsimp only [WirePhase.decode]
      rw [h.absorbRange hnet he]
      exact h.run .nil
  | fetching latest =>
    unfold WireWorld.relay BridgeWorld.relay
    dsimp only [WirePhase.decode]
    cases tokens.addresses.isEmpty with
    | true => exact h.persist.run .nil
    | false =>
      cases rpc with
      | failed | lost => exact h.idle
      | ok =>
        have hreads : List.Forall₂ Reads (getLogs net.keccak net.factory w.chain tokens.addresses
            (withdrawalTopic net.keccak) cursors.nextL2Block latest) _ :=
          getLogs_withdrawals hnet.apart hw.executed.fits tokens.addresses
        rw [h.chain] at hreads ⊢
        exact h.run hreads
  -- the logs as returned are read one by one, as the burns are
  | releasing latest logs =>
    cases hlogs with
    | nil => exact h.persist.run .nil
    | cons hlog hrest => exact h.processWithdrawalLog hnet hlog hrest

/-! ## The set-up -/

theorem boot (hnet : net.Sound types) (hw : BridgeWorld.Readable types R w)
    (he : Encodable w.chain) (h : u.Decodes net w) :
    (u.boot net rpc).Decodes net (w.boot rpc) := by
  have hsized : Sized u.world.vault := h.vault ▸ hw.sized
  obtain ⟨_, hserves⟩ := hnet.serves _ hsized
  have hstatus : vaultStatus (u.get net .ok) net.ids = _ :=
    vaultStatus_eq hserves hnet.distinct hsized
  unfold WireWorld.boot BridgeWorld.boot
  rw [hstatus, h.file]
  dsimp only
  cases !u.world.file.load.tokens.isEmpty && decide (0 < u.world.file.load.nextL2Block) with
  | true =>
    cases TokenRegistry.fromSnapshot u.world.file.load.tokens with
    | error e => exact h
    | ok tokens => exact h.run .nil
  | false =>
    cases rpc with
    | failed | lost => exact h
    | ok =>
      simp only [Rpc.answer, ← h.chain, parseHexQty_quantity he.1]
      exact h.indexing

theorem index {head chunk start : Nat} (hnet : net.Sound types) (he : Encodable w.chain)
    (h : u.Decodes net w) :
    (u.index types net cursors head tokens net.ids.deposits chunk start rpc disk).Decodes net
      (w.index types cursors head tokens chunk start rpc disk) := by
  unfold WireWorld.index BridgeWorld.index
  by_cases hrange : start ≤ head
  · rw [if_pos hrange, if_pos hrange]
    cases rpc with
    | ok =>
      dsimp only
      rw [h.absorbRange hnet he]
      exact h.indexing
    | failed | lost =>
      dsimp only
      change WireWorld.Decodes net (if _ then _ else _) (if _ then _ else _)
      split
      · exact h.indexing
      · exact h.down
  · rw [if_neg hrange, if_neg hrange]
    exact h.persist.run .nil

end WireWorld.Decodes

/-! ## The runs -/

namespace BridgeWorld

variable {types : CoinTypeSyntax} {R : EvmAddress} {w w' : BridgeWorld} {process : Process}
  {served : List (Bytes × Burn)} {paid : List Burn}

def withTask (w : BridgeWorld) (process : Process) (served : List (Bytes × Burn))
    (paid : List Burn) : BridgeWorld := { w with process, served, paid }

theorem includeTx_withTask (i : Inclusion) :
    includeTx R (w.withTask process served paid) i =
      (includeTx R w i).map fun v => v.withTask process served paid := by
  cases i with
  | outside sender created call =>
    change (if w.chain.contracts.Unprivileged R sender call then some _ else none) =
      Option.map _ (if w.chain.contracts.Unprivileged R sender call then some _ else none)
    split <;> rfl
  | relayed n created =>
    unfold includeTx withTask
    dsimp only
    split <;> rfl

theorem execAll_withTask (txs : List Inclusion) :
    execAll (includeTx R) (w.withTask process served paid) txs =
      (execAll (includeTx R) w txs).map fun v => v.withTask process served paid := by
  induction txs generalizing w with
  | nil => rfl
  | cons i txs ih =>
    simp only [execAll, includeTx_withTask]
    cases includeTx R w i with
    | none => rfl
    | some v => exact ih

/-- What others do: no step of the task, nor the end of it. -/
def Action.outside : Action → Bool
  | .deposit .. | .mine .. | .loseFile | .tearFile | .downgradeFile | .restoreFile .. => true
  | _ => false

/-- What others do does not depend on the task. -/
theorem exec_withTask {a : Action} (ha : a.outside) :
    exec types R (w.withTask process served paid) a =
      (exec types R w a).map fun v => v.withTask process served paid := by
  cases a with
  | deposit T amount recipientL2 =>
    simp only [exec]
    split
    · rw [Option.map_map]
      rfl
    · rfl
  | mine txs =>
    simp only [exec, execAll_withTask, Option.map_map]
    rfl
  | loseFile | tearFile => rfl
  | downgradeFile =>
    simp only [exec]
    cases hfile : w.file <;> simp only [withTask, hfile] <;> rfl
  | restoreFile version =>
    simp only [exec, Option.map_map]
    rfl
  | _ => cases ha

end BridgeWorld

namespace WireWorld

variable {types : CoinTypeSyntax} {net : Wire} {R : EvmAddress} {u u' : WireWorld}
  {w : BridgeWorld} {a : BridgeWorld.Action} {as : List BridgeWorld.Action}

/-- A step of one is a step of the other. -/
theorem exec_decodes (hnet : net.Sound types) (hw : BridgeWorld.Readable types R w)
    (he : Encodable w.chain) (h : u.Decodes net w) :
    Option.Rel (WireWorld.Decodes net) (u.exec types net R a) (w.exec types R a) := by
  obtain ⟨world, process⟩ := u
  have houtside : a.outside → Option.Rel (WireWorld.Decodes net)
      ((world.exec types R a).map fun world => ⟨world, process⟩) (w.exec types R a) := by
    intro ha
    rw [show w = world.withTask w.process w.served w.paid from h.same,
      BridgeWorld.exec_withTask ha]
    cases world.exec types R a with
    | none => exact .none
    | some v => exact .some ⟨h.task, rfl⟩
  have htask := h.task
  generalize hp : w.process = task at htask
  cases a with
  | deposit | mine | loseFile | tearFile | downgradeFile | restoreFile => exact houtside rfl
  | crash => exact .some h.down
  | boot rpc =>
    simp only [WireWorld.exec, BridgeWorld.exec, hp]
    cases htask with
    | down => exact .some (h.boot hnet hw he)
    | indexing | running => exact .none
  | index rpc disk =>
    simp only [WireWorld.exec, BridgeWorld.exec, hp]
    cases htask with
    | indexing => exact .some (h.index hnet he)
    | down | running => exact .none
  | relayDeposits rpc =>
    simp only [WireWorld.exec, BridgeWorld.exec, hp]
    cases htask with
    | @running cursors tokens phase burns hlogs =>
      cases phase with
      | idle => exact .some (h.relayDeposits hnet hw)
      | _ => exact .none
    | down | indexing => exact .none
  | relayWithdrawals rpc =>
    simp only [WireWorld.exec, BridgeWorld.exec, hp]
    cases htask with
    | @running cursors tokens phase burns hlogs =>
      cases phase with
      | idle => exact .some (h.relayWithdrawals he)
      | _ => exact .none
    | down | indexing => exact .none
  | relay rpc disk =>
    simp only [WireWorld.exec, BridgeWorld.exec, hp]
    cases htask with
    | running hlogs => exact .some (h.relay hnet hw he hlogs hp)
    | down | indexing => exact .none

variable (types net R)

def Start (u : WireWorld) : Prop := BridgeWorld.Start R u.world ∧ u.process = .down

/-- A step, from a chain whose blocks and logs can be told. -/
def Step (u : WireWorld) (a : BridgeWorld.Action) (u' : WireWorld) : Prop :=
  Encodable u.world.chain ∧ u.exec types net R a = some u'

end WireWorld

/-- A step of the relayer that reads the state, from a chain whose blocks and logs can be told. -/
def BridgeWorld.Step (types : CoinTypeSyntax) (R : EvmAddress) (w : BridgeWorld) (a : Action)
    (w' : BridgeWorld) : Prop := Encodable w.chain ∧ w.exec types R a = some w'

namespace WireWorld

variable {types net R}

/-- Reachable on the one side, and the same on the other. -/
def Follows (types : CoinTypeSyntax) (net : Wire) (R : EvmAddress) (u : WireWorld)
    (w : BridgeWorld) : Prop :=
  Reachable (BridgeWorld.Start R) (enabled (BridgeWorld.exec types R)) w ∧ u.Decodes net w

theorem Start.follows (h : u.Start R) : Follows types net R u u.world := by
  obtain ⟨world, process⟩ := u
  obtain ⟨hstart, rfl⟩ := h
  refine ⟨.start hstart, ?_, rfl⟩
  obtain ⟨-, id, predeploy, rfl⟩ := hstart
  exact .down

/-- Wherever the task goes, the other can go. -/
theorem step_read (hnet : net.Sound types) (u : WireWorld) (w : BridgeWorld)
    (a : BridgeWorld.Action) (u' : WireWorld) (h : Follows types net R u w)
    (hs : u.Step types net R a u') : ∃ w', w.Step types R a w' ∧ Follows types net R u' w' := by
  obtain ⟨hw, h⟩ := h
  obtain ⟨he, hs⟩ := hs
  rw [← h.chain] at he
  obtain ⟨w', hw', h'⟩ := enabled_left
    (exec_decodes hnet (BridgeWorld.reachable_readable hnet.text.short hw) he h) hs
  exact ⟨w', ⟨he, hw'⟩, hw.next hw', h'⟩

/-- And wherever the other goes, the task can go. -/
theorem step_told (hnet : net.Sound types) (w : BridgeWorld) (u : WireWorld)
    (a : BridgeWorld.Action) (w' : BridgeWorld) (h : Follows types net R u w)
    (hs : w.Step types R a w') : ∃ u', u.Step types net R a u' ∧ Follows types net R u' w' := by
  obtain ⟨hw, h⟩ := h
  obtain ⟨he, hs⟩ := hs
  obtain ⟨u', hu', h'⟩ := enabled_right
    (exec_decodes hnet (BridgeWorld.reachable_readable hnet.text.short hw) he h) hs
  rw [h.chain] at he
  exact ⟨u', ⟨he, hu'⟩, hw.next hs, h'⟩

/-- **The relayer over the wire is the relayer.** As long as blocks and logs can be told, the runs
of the task that is answered in bytes and words are those of the relayer that reads the vault and
the chain: each is answered, action by action, by one of the other that leaves the same vault, the
same chain, the same transactions and the same file, and a task that stands where the other
stands. -/
theorem relayer_over_the_wire (hnet : net.Sound types) (hu : u.Start R) :
    (∀ u', Run (Step types net R) u as u' →
      ∃ w', Run (BridgeWorld.Step types R) u.world as w' ∧ u'.Decodes net w') ∧
    ∀ w', Run (BridgeWorld.Step types R) u.world as w' →
      ∃ u', Run (Step types net R) u as u' ∧ u'.Decodes net w' := by
  constructor
  · intro u' hrun
    obtain ⟨w', hrun', hfollows⟩ := hrun.answered (step_read hnet) hu.follows
    exact ⟨w', hrun', hfollows.2⟩
  · intro w' hrun
    obtain ⟨u', hrun', hfollows⟩ := hrun.answered (step_told hnet) hu.follows
    exact ⟨u', hrun', hfollows.2⟩

/-! ## A run -/

instance : DecidablePred CreationFits
  | .factory (.bridgeCreated ..) => inferInstanceAs (Decidable (_ ≤ _))
  | .factory (.relayerChanged ..) | .bridge .. => isTrue trivial

instance (chain : Chain) : Decidable (Encodable chain) := inferInstanceAs (Decidable (_ ∧ _))

/-- The hashes of the signatures of the events. -/
def eventHashes : List (String × Nat) := [
  (withdrawalSignature, 0xd00d8f9b4f0cf50f5fa2b38f0d180d81bcc9e3c1627270e971b8eafa1cd2d36b),
  (createdSignature, 0xa262c9c1c32b44967b848d5a2f12e17c10456f290e986f7b0e25091682c6ff46),
  ("RelayerChanged(address,address)",
    0x18f08848c5694a025f9966c34ff2367f32a1a8275663b282ee01f4338b045490),
  ("Transfer(address,address,uint256)",
    0xddf252ad1be2c89b69c2b068fc378daa952ba7f163c4a11628f55a4df523b3ef),
  ("Approval(address,address,uint256)",
    0x8c5be1e5ebec7d5bd14f71427d1e84f3dd0314c0f7b2291e5b200ac8c7c3b925),
  ("DepositMinted(uint64,address,uint256,string)",
    0xf5cd181d2c2466ee64f11e775d3f4fc4a2b1afc0ba0fba6399e6229a327e5987)]

def eventHash (bytes : Bytes) : FixedBytes 32 :=
  let known := eventHashes.find? fun entry => Bcs.utf8 entry.1 = bytes
  ⟨beBytes 32 ((known.map Prod.snd).getD 0), length_beBytes⟩

theorem eventHash_apart : SignaturesApart eventHash := by
  have hall : ∀ s ∈ eventHashes.map Prod.fst, ∀ t ∈ eventHashes.map Prod.fst,
      eventHash (Bcs.utf8 s) = eventHash (Bcs.utf8 t) → s = t := by decide +kernel
  have hmem : ∀ log, signature log ∈ eventHashes.map Prod.fst := by
    intro log
    cases log with
    | factory event => cases event <;> simp [signature, eventHashes]
    | bridge token event => cases event <;> simp [signature, eventHashes]
  exact fun log log' h => hall _ (hmem log) _ (hmem log') h

def plainWire : Wire where
  ids := plainVaultIds
  keccak := eventHash
  factory := .repeated 5
  get vault := vaultNode plainVaultIds vault 1

open BridgeWorld in
theorem plainWire_sound : plainWire.Sound (.single suiName suiShort) := by
  have hname : Bcs.utf8
      "0000000000000000000000000000000000000000000000000000000000000002::sui::SUI" = suiName := rfl
  have hshort : Bcs.utf8 "0x2::sui::SUI" = suiShort := rfl
  refine ⟨plainVaultIds_distinct, fun _ hsized => ⟨1, vaultNode_serves hsized⟩, eventHash_apart,
    fun {s T} h => ?_, fun {T} h => ?_, ?_⟩
  · by_cases hs : s = suiName ∨ s = suiShort
    · obtain rfl | rfl := hs
      · exact ⟨_, hname⟩
      · exact ⟨_, hshort⟩
    · simp [CoinTypeSyntax.single, hs] at h
  · obtain rfl : T = suiName := of_decide_eq_true h
    exact ⟨_, hname⟩
  · intro T h
    obtain rfl : T = suiName := of_decide_eq_true h
    decide

open BridgeWorld in
set_option maxRecDepth 4000 in
/-- Over the wire the deposit of the first run is minted, burnt and released. -/
theorem served_over_the_wire : ∃ u', Run (Step (.single suiName suiShort) plainWire (.repeated 1))
    ⟨fresh (.repeated 1) 0 (.repeated 9), .down⟩ serveFirst u' ∧
      u'.world.vault.withdrawNonce = 1 ∧ u'.world.chain.head = 4 := by
  have hstart : Start (.repeated 1) ⟨fresh (.repeated 1) 0 (.repeated 9), .down⟩ :=
    ⟨⟨by decide, 0, .repeated 9, rfl⟩, rfl⟩
  have hread : Run (BridgeWorld.Step (.single suiName suiShort) (.repeated 1))
      (fresh (.repeated 1) 0 (.repeated 9)) serveFirst (bridgeAfter serveFirst) :=
    run_of_execDecide rfl
  obtain ⟨u', hrun, hsame⟩ := (relayer_over_the_wire plainWire_sound hstart).2 _ hread
  refine ⟨u', hrun, ?_, ?_⟩
  · rw [← hsame.vault]
    rfl
  · rw [← hsame.chain]
    rfl

end WireWorld

end Podseq.Node
