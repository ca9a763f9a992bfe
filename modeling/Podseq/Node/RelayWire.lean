import Podseq.Lib.Lockstep
import Podseq.Node.DepositCursor
import Podseq.Node.L2Rpc
import Podseq.Node.VaultReads

/-! # The relayer over the wire

The task sees neither the vault nor the chain. It is answered with the bytes of objects and with
strings of words, and decides by what it takes out of them. What the nodes serve is what stands on
the ledger and on the chain; so the task does, answer by answer, what a relayer does that reads
their state.
-/
namespace Podseq.Node
open Podseq.Lib Podseq.Move Podseq.Solidity LedgerObjects LedgerReads VaultReads L2Rpc

/-! ## The task -/

/-- Where the task stands, with the logs of a pass as they were returned. -/
inductive WirePhase
  | idle
  | deposits (latest : Nat)
  | creating (latest : Nat) (record : DepositRecord)
  | awaitCreated (latest : Nat) (record : DepositRecord) (tx : Nat)
  | readLast (latest : Nat) (record : DepositRecord) (token : EvmAddress)
  | readAny (latest : Nat) (record : DepositRecord) (token : EvmAddress) (last : Nat)
  | minting (latest : Nat) (record : DepositRecord) (token : EvmAddress)
  | awaitMinted (latest : Nat) (record : DepositRecord) (token : EvmAddress) (tx : Nat)
  | absorbing (latest : Nat)
  | fetching (latest : Nat)
  | releasing (latest : Nat) (logs : List RpcLog)

structure WireRelayer where
  cursors : Cursors
  tokens : TokenRegistry
  /-- `deposits_table_uid`, read at the set-up. -/
  table : FixedBytes 32
  phase : WirePhase

inductive WireProcess
  | down
  | indexing (cursors : Cursors) (head : Nat) (tokens : TokenRegistry) (table : FixedBytes 32)
      (chunk start : Nat)
  | running (relayer : WireRelayer)

/-- The ids on the ledger and what a full node of it replies, the hash of the L2 and the address of
its factory. -/
structure Wire where
  ids : VaultIds
  keccak : Bytes → FixedBytes 32
  factory : EvmAddress
  get : Vault → FixedBytes 32 → ObjectReply

/-- What stands outside the task, whose own task is not looked at, and the task. -/
structure WireWorld where
  world : BridgeWorld
  process : WireProcess

/-- A read that is answered, or is not. -/
def Rpc.answer {α : Type} (rpc : Rpc) (a : α) : Except String α :=
  match rpc with
  | .ok => .ok a
  | _ => .error "L2 RPC send"

namespace WireWorld

variable (types : CoinTypeSyntax) (net : Wire) (R : EvmAddress) (u : WireWorld)
  (relayer : WireRelayer)

def get (rpc : Rpc) (id : FixedBytes 32) : ObjectReply :=
  match rpc with
  | .ok => net.get u.world.vault id
  | _ => .failed "transport"

def run : WireWorld := { u with process := .running relayer }

def idle : WireWorld := u.run { relayer with phase := .idle }

def indexing (cursors : Cursors) (head : Nat) (tokens : TokenRegistry) (table : FixedBytes 32)
    (chunk start : Nat) : WireWorld :=
  { u with process := .indexing cursors head tokens table chunk start }

def persist (disk : Disk) (cursors : Cursors) : WireWorld :=
  { u with world := u.world.persist disk cursors }

def send (tx : RelayTx) : WireWorld := { u with world := u.world.send tx }

def advance (latest : Nat) (disk : Disk) : WireWorld :=
  let cursors := relayer.cursors.advanced relayer.tokens
  (u.persist disk cursors).run { relayer with cursors, phase := .deposits latest }

def finish (latest : Nat) (disk : Disk) : WireWorld :=
  let cursors := relayer.cursors.scanned relayer.tokens latest
  (u.persist disk cursors).run { relayer with cursors, phase := .idle }

def absorbRange (tokens : TokenRegistry) (rpc : Rpc) (lo hi : Nat) :
    Except String (TokenRegistry × Nat) :=
  absorbCreations (types.normalize ∘ Bcs.utf8) (createdTopic net.keccak) tokens
    (rpc.answer (getLogs net.keccak net.factory u.world.chain [net.factory]
      (createdTopic net.keccak) lo hi))

/-- `relay_deposits`, up to its loop. -/
def relayDeposits (rpc : Rpc) : WireWorld :=
  match vaultStatus (u.get net rpc) net.ids with
  | .ok status => u.run { relayer with phase := .deposits status.depositNonce }
  | .error _ => u.idle relayer

/-- `relay_withdrawals`, up to `absorb_creations`. -/
def relayWithdrawals (rpc : Rpc) : WireWorld :=
  match rpc.answer (Hex.quantity u.world.chain.head) with
  | .ok head =>
    if parseHexQty head < relayer.cursors.nextL2Block then u.idle relayer
    else u.run { relayer with phase := .absorbing (parseHexQty head) }
  | .error _ => u.idle relayer

/-- The top of the loop of `relay_deposits`, and the front of `ensure_token`. -/
def readDeposit (latest : Nat) (rpc : Rpc) : WireWorld :=
  if latest ≤ relayer.cursors.nextDepositNonce then u.idle relayer
  else match depositAt (u.get net rpc) net.ids relayer.table relayer.cursors.nextDepositNonce with
    | .ok (some record) =>
      match relayer.tokens.tokenFor record.coinType with
      | some token => u.run { relayer with phase := .readLast latest record token }
      | none =>
        match fromUtf8 record.coinType with
        | .ok _ => u.run { relayer with phase := .creating latest record }
        | .error _ => u.idle relayer
    | .ok none | .error _ => u.idle relayer

def sendTx (tx : RelayTx) (phase : Nat → WirePhase) (rpc : Rpc) : WireWorld :=
  match rpc with
  | .ok => (u.send tx).run { relayer with phase := phase u.world.sent.length }
  | .failed => u.idle relayer
  | .lost => (u.send tx).idle relayer

/-- The end of `ensure_token`. -/
def ensureToken (latest : Nat) (record : DepositRecord) (token : EvmAddress) : WireWorld :=
  match relayer.tokens.insert record.coinType token with
  | (tokens, true) => u.run { relayer with tokens, phase := .readLast latest record token }
  | (tokens, false) =>
    match tokens.tokenFor record.coinType with
    | some canonical =>
      u.run { relayer with tokens, phase := .readLast latest record canonical }
    | none => u.idle relayer

/-- One poll of `wait_for_receipt`, and `ensure_receipt_success`. -/
def pollReceipt (tx : Nat) (rpc : Rpc) (success : RpcReceipt → WireWorld) : WireWorld :=
  let reply := rpc.answer ((u.world.receipts tx).map (rpcReceipt net.keccak net.factory))
  match reply.bind optionResult with
  | .error _ => u.idle relayer
  -- the loop would poll again, but no reply is read as this
  | .ok none => u
  | .ok (some receipt) =>
    if ensureReceiptSuccess receipt then success receipt else u.idle relayer

/-- The token of the first `BridgeCreated` log that decodes. -/
def createdToken (receipt : RpcReceipt) : Option EvmAddress :=
  receipt.logs.findSome? fun log =>
    match parseBridgeCreatedLog (createdTopic net.keccak) log with
    | .ok (_, token) => some token
    | .error _ => none

def lastMinted (token : EvmAddress) (rpc : Rpc) : Nat :=
  match rpc.answer (callLastMinted u.world.chain token) with
  | .ok result => match ethCallU64 result with
    | .ok last => last
    | .error _ => 0
  | .error _ => 0

def mintedAny (token : EvmAddress) (rpc : Rpc) : Bool :=
  match rpc.answer (callMintedAny u.world.chain token) with
  | .ok result => match ethCallBool result with
    | .ok any => any
    | .error _ => false
  | .error _ => false

def processWithdrawalLog (latest : Nat) (log : RpcLog) (rest : List RpcLog) (rpc : Rpc) :
    WireWorld :=
  match parseLogAddress log.address with
  | .error _ => u.idle relayer
  | .ok token =>
    match relayer.tokens.coinFor token with
    | none => u.idle relayer
    | some coin =>
      match fromUtf8 coin with
      | .error _ => u.idle relayer
      | .ok text =>
        match types.parse (Bcs.utf8 text), parseWithdrawalLog log with
        | none, _ | _, .error _ => u.idle relayer
        | some T, .ok parsed =>
          match rpc with
          | .failed => u.idle relayer
          | rpc =>
            match u.world.vault.doWithdraw T
                (parsed.suiRecipient.val.foldl (fun n b => 256 * n + b.toNat) 0)
                parsed.amount parsed.nonce with
            | .error _ => u.idle relayer
            | .ok (vault, _) =>
              let executed := { u with world := { u.world with vault } }
              match rpc with
              | .ok => executed.run { relayer with phase := .releasing latest rest }
              | _ => executed.idle relayer

def relay (rpc : Rpc) (disk : Disk) : WireWorld :=
  let nonce := relayer.cursors.nextDepositNonce
  match relayer.phase with
  | .idle => u
  | .deposits latest => u.readDeposit net relayer latest rpc
  | .creating latest record =>
    u.sendTx relayer (.create record.coinType) (.awaitCreated latest record) rpc
  | .awaitCreated latest record tx =>
    u.pollReceipt net relayer tx rpc fun receipt =>
      match createdToken net receipt with
      | some token => u.ensureToken relayer latest record token
      | none => u.idle relayer
  | .readLast latest record token =>
    u.run { relayer with phase := .readAny latest record token (u.lastMinted token rpc) }
  | .readAny latest record token last =>
    if u.mintedAny token rpc && nonce ≤ last then u.advance relayer latest disk
    else u.run { relayer with phase := .minting latest record token }
  | .minting latest record token =>
    match FixedBytes.ofBytes? 20 record.recipientL2 with
    | some recipient =>
      u.sendTx relayer (.mint token recipient record.amount nonce)
        (.awaitMinted latest record token) rpc
    | none => u.idle relayer
  | .awaitMinted latest _ _ tx =>
    u.pollReceipt net relayer tx rpc fun _ => u.advance relayer latest disk
  | .absorbing latest =>
    match u.absorbRange types net relayer.tokens rpc relayer.cursors.nextL2Block latest with
    | .ok (tokens, _) => u.run { relayer with tokens, phase := .fetching latest }
    | .error _ => u.idle relayer
  | .fetching latest =>
    if relayer.tokens.addresses.isEmpty then u.finish relayer latest disk
    else match rpc.answer (getLogs net.keccak net.factory u.world.chain relayer.tokens.addresses
        (withdrawalTopic net.keccak) relayer.cursors.nextL2Block latest) with
      | .ok logs => u.run { relayer with phase := .releasing latest logs }
      | .error _ => u.idle relayer
  | .releasing latest [] => u.finish relayer latest disk
  | .releasing latest (log :: rest) => u.processWithdrawalLog types relayer latest log rest rpc

/-- The set-up, from `vault_status` on: the id of the table of deposits, then the registry from a
usable file, or a scan up to the head. A set-up that fails starts over. -/
def boot (rpc : Rpc) : WireWorld :=
  match vaultStatus (u.get net .ok) net.ids with
  | .error _ => u
  | .ok status =>
    let cursors := u.world.file.load
    if !cursors.tokens.isEmpty && 0 < cursors.nextL2Block then
      match TokenRegistry.fromSnapshot cursors.tokens with
      | .ok tokens => u.run ⟨cursors, tokens, status.depositsTableUid, .idle⟩
      | .error _ => u
    else match rpc.answer (Hex.quantity u.world.chain.head) with
      | .ok head => u.indexing cursors (parseHexQty head) .empty status.depositsTableUid
          creationScanChunk 0
      | .error _ => u

def index (cursors : Cursors) (head : Nat) (tokens : TokenRegistry) (table : FixedBytes 32)
    (chunk start : Nat) (rpc : Rpc) (disk : Disk) : WireWorld :=
  if start ≤ head then
    let stop := min (min (start + (chunk - 1)) u64Max) head
    match u.absorbRange types net tokens rpc start stop with
    | .ok (tokens, found) =>
      let narrowed := creationScanHalveAfter ≤ found ∧ minCreationScanChunk < chunk
      let chunk := if narrowed then chunk / 2 else chunk
      u.indexing cursors head tokens table chunk (stop + 1)
    | .error _ =>
      if minCreationScanChunk < chunk then u.indexing cursors head tokens table (chunk / 2) start
      else { u with process := .down }
  else
    let cursors := cursors.scanned tokens head
    (u.persist disk cursors).run ⟨cursors, tokens, table, .idle⟩

/-- One step, when it is enabled. What others do is as in `BridgeWorld`. -/
def exec : BridgeWorld.Action → Option WireWorld
  | .crash => some { u with process := .down }
  | .boot rpc => match u.process with
    | .down => some (u.boot net rpc)
    | _ => none
  | .index rpc disk => match u.process with
    | .indexing cursors head tokens table chunk start =>
      some (u.index types net cursors head tokens table chunk start rpc disk)
    | _ => none
  | .relayDeposits rpc => match u.process with
    | .running ⟨cursors, tokens, table, .idle⟩ =>
      some (u.relayDeposits net ⟨cursors, tokens, table, .idle⟩ rpc)
    | _ => none
  | .relayWithdrawals rpc => match u.process with
    | .running ⟨cursors, tokens, table, .idle⟩ =>
      some (u.relayWithdrawals ⟨cursors, tokens, table, .idle⟩ rpc)
    | _ => none
  | .relay rpc disk => match u.process with
    | .running relayer => some (u.relay types net relayer rpc disk)
    | _ => none
  | a => (u.world.exec types R a).map fun world => { u with world }

end WireWorld

/-! ## What the task stands for -/

namespace WirePhase

def logs : WirePhase → List RpcLog
  | .releasing _ logs => logs
  | _ => []

/-- The phase, with its logs read. -/
def decode (burns : List Burn) : WirePhase → Phase
  | .idle => .idle
  | .deposits latest => .deposits latest
  | .creating latest record => .creating latest record
  | .awaitCreated latest record tx => .awaitCreated latest record tx
  | .readLast latest record token => .readLast latest record token
  | .readAny latest record token last => .readAny latest record token last
  | .minting latest record token => .minting latest record token
  | .awaitMinted latest record token tx => .awaitMinted latest record token tx
  | .absorbing latest => .absorbing latest
  | .fetching latest => .fetching latest
  | .releasing latest _ => .releasing latest burns

end WirePhase

/-- The task with its logs read, when it asks under the right table. -/
inductive WireProcess.Decodes (table : FixedBytes 32) : WireProcess → Process → Prop
  | down : Decodes table .down .down
  | indexing {cursors head tokens chunk start} :
      Decodes table (.indexing cursors head tokens table chunk start)
        (.indexing cursors head tokens chunk start)
  | running {cursors tokens phase burns} : List.Forall₂ Reads phase.logs burns →
      Decodes table (.running ⟨cursors, tokens, table, phase⟩)
        (.running ⟨cursors, tokens, phase.decode burns⟩)

/-- The same outside the task, and the task read. -/
structure WireWorld.Decodes (net : Wire) (u : WireWorld) (w : BridgeWorld) : Prop where
  task : u.process.Decodes net.ids.deposits w.process
  same : w = { u.world with process := w.process, served := w.served, paid := w.paid }

namespace WireWorld

variable {types : CoinTypeSyntax} {net : Wire} {R : EvmAddress} {u u' : WireWorld}
  {w w' : BridgeWorld} {relayer : WireRelayer} {cursors : Cursors} {tokens : TokenRegistry}
  {phase : WirePhase} {burns : List Burn} {rpc : Rpc} {disk : Disk} {latest : Nat}
  {record : DepositRecord} {token : EvmAddress}

namespace Decodes

theorem vault (h : u.Decodes net w) : w.vault = u.world.vault := congrArg (·.vault) h.same
theorem chain (h : u.Decodes net w) : w.chain = u.world.chain := congrArg (·.chain) h.same
theorem sent (h : u.Decodes net w) : w.sent = u.world.sent := congrArg (·.sent) h.same
theorem receipts (h : u.Decodes net w) : w.receipts = u.world.receipts :=
  congrArg (·.receipts) h.same
theorem file (h : u.Decodes net w) : w.file = u.world.file := congrArg (·.file) h.same

/-- The task goes on; `burns` are the logs it goes on with. -/
theorem run (h : u.Decodes net w) (hlogs : List.Forall₂ Reads phase.logs burns) :
    (u.run ⟨cursors, tokens, net.ids.deposits, phase⟩).Decodes net
      (w.run ⟨cursors, tokens, phase.decode burns⟩) :=
  ⟨.running hlogs, by rw [h.same]; rfl⟩

theorem idle (h : u.Decodes net w) {phase' : Phase} :
    (u.idle ⟨cursors, tokens, net.ids.deposits, phase⟩).Decodes net
      (w.idle ⟨cursors, tokens, phase'⟩) := ⟨.running .nil, by rw [h.same]; rfl⟩

theorem persist (h : u.Decodes net w) :
    (u.persist disk cursors).Decodes net (w.persist disk cursors) := by
  cases disk <;> exact ⟨h.task, by rw [h.same]; rfl⟩

theorem send {tx : RelayTx} (h : u.Decodes net w) : (u.send tx).Decodes net (w.send tx) :=
  ⟨h.task, by rw [h.same]; rfl⟩

theorem indexing {head chunk start : Nat} (h : u.Decodes net w) :
    (u.indexing cursors head tokens net.ids.deposits chunk start).Decodes net
      (w.indexing cursors head tokens chunk start) := ⟨.indexing, by rw [h.same]; rfl⟩

theorem down (h : u.Decodes net w) :
    WireWorld.Decodes net { u with process := .down } { w with process := .down } :=
  ⟨.down, by rw [h.same]⟩

/-- A withdrawal was executed; what is told of it is not looked at. -/
theorem withdrawn {vault : Vault} {served : List (Bytes × Burn)} {paid : List Burn}
    (h : u.Decodes net w) :
    WireWorld.Decodes net { u with world := { u.world with vault } }
      { w with vault, served, paid } :=
  ⟨h.task, by rw [h.same]⟩

end Decodes

end WireWorld

/-! ## What the reads rely on -/

namespace BridgeWorld

variable {types : CoinTypeSyntax} {R : EvmAddress} {w w' : BridgeWorld} {a : Action}
  {contracts contracts' : Contracts} {chain : Chain} {sender created token : EvmAddress}
  {call : L2Call} {logs : List Log}

/-- What is not logged as a burn has no numbers to bound. -/
theorem fits_of_noBurn {event : BridgeEvent} {events : List BridgeEvent}
    (h : Bridge.burnsIn events = []) (hevent : event ∈ events) :
    WithdrawalFits (.bridge token event) := by
  cases event with
  | withdrawalInitiated nonce source suiRecipient amount =>
    have hburn : (nonce, amount) ∈ Bridge.burnsIn events := List.mem_filterMap.2 ⟨_, hevent, rfl⟩
    rw [h] at hburn
    cases hburn
  | _ => trivial

/-- A bridge logs a burn with numbers of its types. -/
theorem call_fits {bridge bridge' : Bridge} {call : BridgeCall} {events : List BridgeEvent}
    (hs : bridge.Sound) (h : bridge.call sender call = .ok (bridge', events)) :
    ∀ event ∈ events, WithdrawalFits (.bridge token event) := by
  intro event hevent
  obtain ⟨_, _, _, -, hmint⟩ | ⟨_, amount, -, -, hle, hnonce, -, rfl⟩ | hquiet :=
    Bridge.call_cases hs.bounded hs.total h
  · obtain ⟨-, -, -, -, -, hr⟩ := Bridge.mint_eq_ok.1 hmint
    cases hr
    exact fits_of_noBurn rfl hevent
  · obtain rfl | hevent := List.mem_cons.1 hevent
    · exact ⟨hnonce, hle.trans ((hs.total.le sender).trans hs.bounded)⟩
    · exact fits_of_noBurn rfl hevent
  · exact fits_of_noBurn hquiet.noBurn hevent

/-- So does every transaction. -/
theorem exec_fits (hw : contracts.WellFormed R)
    (h : contracts.exec sender created call = .ok (contracts', logs)) :
    ∀ log ∈ logs, WithdrawalFits log := by
  cases call with
  | initializeFactory relayer =>
    simp [Contracts.exec, Contracts.initializeFactory, hw.ready] at h
  | createBridge name symbol coinType =>
    obtain ⟨-, -, -, -, -, -, hr⟩ := Contracts.createBridge_eq_ok.1 h
    cases hr
    simp [WithdrawalFits]
  | adoptBridge coinType token =>
    obtain ⟨_, -, -, -, -, -, -, -, -, hr⟩ := Contracts.adoptBridge_eq_ok.1 h
    cases hr
    simp [WithdrawalFits]
  | setFactoryRelayer next =>
    simp only [Contracts.exec, Contracts.setFactoryRelayer, bind_eq_ok, require_eq_ok,
      exists_const, pure_eq_ok, Prod.mk.injEq] at h
    obtain ⟨-, -, -, rfl⟩ := h
    simp [WithdrawalFits]
  | bridge token bridgeCall =>
    obtain ⟨bridge, bridge', events, hb, hcall, hr⟩ := Contracts.callBridge_eq_ok.1 h
    cases hr
    intro log hlog
    obtain ⟨event, hevent, rfl⟩ := List.mem_map.1 hlog
    exact call_fits (hw.sound hb) hcall event hevent

/-- Burns are logged in the widths of their types, and a receipt is that of the transaction sent
under its number. -/
structure Executed (R : EvmAddress) (w : BridgeWorld) : Prop where
  fits : ∀ log ∈ w.chain.logs, WithdrawalFits log.2
  receipt : ∀ {i receipt}, w.receipts i = some receipt → ∃ tx chain created,
    w.sent[i]? = some tx ∧ receipt = (Chain.execute chain R created tx.toCall).2

theorem execute_fits (hc : chain.Sound R) (h : ∀ log ∈ chain.logs, WithdrawalFits log.2) :
    ∀ log ∈ (chain.execute sender created call).1.logs, WithdrawalFits log.2 := by
  intro log hlog
  obtain ⟨contracts, logs, hexec, hx⟩ | hx := chain.execute_cases sender created call
  · rw [hx] at hlog
    rcases List.mem_append.1 hlog with hlog | hlog
    · exact h log hlog
    · obtain ⟨event, hevent, rfl⟩ := List.mem_map.1 hlog
      exact exec_fits hc.wellFormed hexec event hevent
  · rw [hx] at hlog
    exact h log hlog

theorem Executed.includeTx {i : Inclusion} (hw : Base types R w) (he : Executed R w)
    (h : includeTx R w i = some w') : Executed R w' := by
  cases i with
  | outside sender created call =>
    simp only [BridgeWorld.includeTx, Option.ite_none_right_eq_some, Option.some.injEq] at h
    obtain ⟨-, rfl⟩ := h
    exact ⟨execute_fits hw.sound he.fits, he.receipt⟩
  | relayed n created =>
    simp only [BridgeWorld.includeTx] at h
    split at h
    · rename_i tx htx hnone
      cases h
      refine ⟨execute_fits hw.sound he.fits, fun {i receipt} hr => ?_⟩
      by_cases hi : i = n
      · subst hi
        simp only [Function.update_self, Option.some.injEq] at hr
        exact ⟨tx, w.chain, created, htx, hr.symm⟩
      · simp only [Function.update_of_ne hi] at hr
        exact he.receipt hr
    · cases h

theorem Executed.effect (hw : Base types R w) (he : Executed R w) (h : Effect types R w a w') :
    Executed R w' := by
  have hgrows := grows_effect hw h
  rcases still_cases h with ⟨txs, u, hrun, rfl⟩ | ⟨hchain, hreceipts⟩
  · have hu : Base types R u ∧ Executed R u := hrun.inv
      (I := fun v => Base types R v ∧ Executed R v)
      (fun _ _ _ hv hs => ⟨(hv.1.includeTx hs).1, hv.2.includeTx hv.1 hs⟩) ⟨hw, he⟩
    exact ⟨hu.2.fits, hu.2.receipt⟩
  · refine ⟨hchain ▸ he.fits, fun hr => ?_⟩
    obtain ⟨tx, chain, created, htx, heq⟩ := he.receipt (hreceipts ▸ hr)
    exact ⟨tx, chain, created, hgrows.sent_getElem htx, heq⟩

/-- The deposit count that a pass works up to. -/
def count : Phase → Option Nat
  | .deposits latest | .creating latest _ | .awaitCreated latest _ _ | .readLast latest _ _
  | .readAny latest _ _ _ | .minting latest _ _ | .awaitMinted latest _ _ _ => some latest
  | _ => none

/-- The count of a pass is one that the vault had. -/
def Counted (w : BridgeWorld) : Prop :=
  ∀ relayer latest, w.process = .running relayer → count relayer.phase = some latest →
    latest ≤ u64Max

theorem Counted.run {relayer : Relayer} {n : Option Nat}
    (hn : ∀ latest, n = some latest → latest ≤ u64Max)
    (hcount : count relayer.phase = n ∨ count relayer.phase = none) :
    Counted (w.run relayer) := by
  intro _ latest hp hlatest
  cases hp
  rcases hcount with hcount | hcount
  · exact hn latest (hcount.symm.trans hlatest)
  · cases hcount.symm.trans hlatest

theorem Counted.moves {relayer : Relayer} {rpc : Rpc} (hc : Counted w)
    (hp : w.process = .running relayer) (h : Moves types w relayer rpc w') : Counted w' := by
  have hle : ∀ latest, count relayer.phase = some latest → latest ≤ u64Max :=
    fun latest => hc relayer latest hp
  cases h with
  | stay => exact hc
  | @created latest record _ _ token hphase =>
    obtain ⟨relayer', heq, -, hnext⟩ := ensureToken_run w relayer latest record token
    rw [heq]
    refine .run hle ?_
    rw [hphase]
    rcases hnext with hnext | ⟨_, hnext⟩ <;> rw [hnext]
    · exact .inr rfl
    · exact .inl rfl
  | found hphase | lacking hphase | sentCreate hphase | readLast hphase | minted hphase
  | unminted hphase | sentMint hphase | confirmed hphase =>
    exact .run hle (.inl (by simp only [hphase, count]))
  | _ => exact .run hle (.inr rfl)

theorem Counted.effect (hw : Base types R w) (hc : Counted w) (h : Effect types R w a w') :
    Counted w' := by
  have hbounded := hw.filed.bounded
  cases h with
  | @mine txs v hrun =>
    have hsame : v.process = w.process := congrArg (·.process) (hw.mine hrun).2.rest
    exact fun relayer latest hp => hc relayer latest (hsame.symm.trans hp)
  | beginDeposits =>
    intro _ latest hp hlatest
    cases hp
    cases hlatest
    exact hbounded
  | moves hp hm => exact hc.moves hp hm
  | down | scan | scanned | narrowed => exact fun _ _ => (nomatch ·)
  | restored | indexed | rest | beginWithdrawals =>
    intro _ latest hp hlatest
    cases hp
    cases hlatest
  | _ => exact hc

/-- What the reads of a reachable state rely on. -/
structure Readable (types : CoinTypeSyntax) (R : EvmAddress) (w : BridgeWorld) : Prop where
  base : Base types R w
  sourced : Sourced w
  traced : Traced types w
  sized : Sized w.vault
  executed : Executed R w
  counted : Counted w

theorem reachable_readable (hshort : ShortNames types)
    (h : Reachable (Start R) (enabled (exec types R)) w) : Readable types R w := by
  have hboth : Executed R w ∧ Counted w := by
    refine h.inv_of (I := fun w => Executed R w ∧ Counted w) (J := fun w => Base types R w)
      (fun _ => reachable_base) ?_ fun _ _ _ hw _ hi hs =>
        ⟨hi.1.effect hw (exec_effect hs), hi.2.effect hw (exec_effect hs)⟩
    intro w hw
    obtain ⟨-, id, predeploy, rfl⟩ := hw
    refine ⟨⟨fun log hlog => (List.not_mem_nil hlog).elim, fun hr => by cases hr⟩, ?_⟩
    exact fun _ _ => (nomatch ·)
  exact ⟨reachable_base h, reachable_sourced h, reachable_traced h, reachable_sized hshort h,
    hboth.1, hboth.2⟩

/-- The last nonce minted on a listed token is that of a deposit. -/
theorem Readable.lastMinted (hw : Readable types R w) (hl : w.chain.Listed token)
    {bridge : Bridge} (hb : w.chain.contracts.bridges token = some bridge) :
    bridge.lastMintedDepositNonce ≤ u64Max := by
  have haccounts := hw.base.sound.accounts hb
  cases hany : bridge.mintedAny with
  | false =>
    rw [haccounts.unset hany]
    exact Nat.zero_le _
  | true =>
    obtain ⟨⟨n, amount⟩, hm, hlast⟩ := List.mem_map.1 (haccounts.last hany)
    obtain ⟨i, recipient, receipt, htx, -, -⟩ := hw.sourced _ _ _ hl hm
    obtain ⟨⟨record, hdue, -⟩, -⟩ := hw.traced.sent (List.mem_of_getElem? htx)
    have hlt : n < w.vault.depositNonce := (hw.sized.dense n).1 (by simp [hdue.1])
    rw [← hlast]
    exact hlt.le.trans hw.sized.bounded

end BridgeWorld

/-! ## Answer by answer -/

/-- Coin types are text, and no longer than BCS counts. -/
structure TextTypes (types : CoinTypeSyntax) : Prop where
  parsed : ∀ {s T}, types.parse s = some T → ∃ text, Bcs.utf8 text = s
  named : ∀ {T}, types.isName T → ∃ text, Bcs.utf8 text = T
  short : ShortNames types

/-- The data of a creation is addressed by 64 bits. -/
def CreationFits : Log → Prop
  | .factory (.bridgeCreated _ coinType name symbol) =>
    (threeStrings coinType name symbol).length ≤ u64Max
  | _ => True

/-- Blocks are numbered with 64 bits, and logs can be addressed. -/
def Encodable (chain : Chain) : Prop :=
  chain.head ≤ u64Max ∧ ∀ log ∈ chain.logs, CreationFits log.2

section
variable {types : CoinTypeSyntax} {keccak : Bytes → FixedBytes 32} {factory token : EvmAddress}
  {tokens : TokenRegistry} {chain : Chain} {coin : Bytes} {text : String} {lo hi : Nat}

theorem utf8_of_fromUtf8 (h : fromUtf8 coin = .ok text) : Bcs.utf8 text = coin := by
  have hsome := fromUtf8_eq_ok.1 h
  unfold String.fromUTF8? at hsome
  split at hsome
  · cases hsome
    rfl
  · cases hsome

/-- What is no text is no coin type. -/
theorem TextTypes.parse_error (ht : TextTypes types) {e : String} (h : fromUtf8 coin = .error e) :
    types.parse coin = none := by
  cases hparse : types.parse coin with
  | none => rfl
  | some T =>
    obtain ⟨text, rfl⟩ := ht.parsed hparse
    rw [fromUtf8_utf8] at h
    cases h

/-- A creation is read off its log as it was logged. -/
theorem creation_rpcLog (ht : TextTypes types) {log : Nat × Log} (hfits : CreationFits log.2)
    (hcreation : log.2.creation.isSome) :
    ((rpcLog keccak factory log.2).creation (types.normalize ∘ Bcs.utf8)
      (createdTopic keccak)).toList = claims types [log] := by
  obtain ⟨block, event | event⟩ := log
  · cases event with
    | relayerChanged => cases hcreation
    | bridgeCreated token coinType name symbol =>
      have hparse := @parseBridgeCreatedLog_rpcLog keccak factory token coinType name symbol hfits
      have hclaims : claims types [(block, .factory (.bridgeCreated token coinType name symbol))] =
          ((types.normalize coinType).map fun coin => (coin, token)).toList := by
        simp only [claims, Chain.creationsIn, List.filterMap_cons, List.filterMap_nil,
          Log.creation]
        cases types.normalize coinType <;> rfl
      rw [RpcLog.creation, hparse, hclaims]
      cases htext : fromUtf8 coinType with
      | ok text =>
        simp only [withContext, Except.mapError, Except.map, Function.comp_apply,
          utf8_of_fromUtf8 htext]
        cases types.normalize coinType <;> rfl
      | error e =>
        simp only [withContext, Except.mapError, Except.map, CoinTypeSyntax.normalize,
          ht.parse_error htext]
        rfl
  · cases hcreation

/-- The creations of a range are read off its logs. -/
theorem filterMap_creation (ht : TextTypes types) {logs : List (Nat × Log)}
    (hfits : ∀ log ∈ logs, CreationFits log.2) :
    ((logs.filter fun log => log.2.creation.isSome).map fun log =>
        rpcLog keccak factory log.2).filterMap
      (·.creation (types.normalize ∘ Bcs.utf8) (createdTopic keccak)) = claims types logs := by
  induction logs with
  | nil => rfl
  | cons log logs ih =>
    have hrest := ih fun log' hlog' => hfits log' (List.mem_cons_of_mem _ hlog')
    have hclaims : claims types (log :: logs) = claims types [log] ++ claims types logs := by
      rw [claims, claims, claims, ← List.filterMap_append, ← Chain.creationsIn_append]
      rfl
    rw [hclaims, ← hrest]
    cases hcreation : log.2.creation with
    | none =>
      have hnone : Chain.creationsIn [log] = [] := List.filterMap_cons_none hcreation
      rw [List.filter_cons_of_neg (by simp [hcreation]), claims, hnone]
      rfl
    | some creation =>
      rw [List.filter_cons_of_pos (by simp [hcreation]), List.map_cons,
        ← creation_rpcLog ht (hfits log List.mem_cons_self) (by simp [hcreation]),
        List.filterMap_cons]
      cases RpcLog.creation _ _ _ <;> rfl

/-- As many logs are returned as there are creations. -/
theorem length_creations {logs : List (Nat × Log)} :
    ((logs.filter fun log => log.2.creation.isSome).map
      fun log => rpcLog keccak factory log.2).length = (Chain.creationsIn logs).length := by
  rw [List.length_map, Chain.creationsIn, List.length_filterMap_eq_countP,
    List.countP_eq_length_filter]

end

end Podseq.Node
