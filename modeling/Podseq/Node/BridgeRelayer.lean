import Podseq.Lib.Runs
import Podseq.Solidity.Chain
import Podseq.Node.CoinType
import Podseq.Node.TokenRegistry

/-! # The bridge relayer, the vault and the L2 chain together

The relayer is one task: it restores its registry, then alternates passes over the deposits
and over the withdrawals. Every request it makes may fail, or take effect with its answer lost;
between two requests the vault and the chain move on, and at any moment the process may crash.
A transaction it sent stays with the L2 node and is mined once, in a later block, or never.
-/
namespace Podseq.Node
open Podseq.Lib Podseq.Move Podseq.Solidity

/-! ## The cursor file -/

structure Cursors where
  /-- Next Sui deposit nonce to mint on L2. -/
  nextDepositNonce : Nat
  /-- Next L2 block up to which logs have been read (exclusive). -/
  nextL2Block : Nat
  tokens : Snapshot

namespace Cursors

def default : Cursors := ⟨0, 0, ∅⟩

/-- The cursors once the next deposit is minted, with the registry as it is then. -/
def advanced (cursors : Cursors) (tokens : TokenRegistry) : Cursors where
  nextDepositNonce := cursors.nextDepositNonce + 1
  nextL2Block := cursors.nextL2Block
  tokens := tokens.snapshot

/-- The cursors once the logs of the blocks up to `latest` are read. -/
def scanned (cursors : Cursors) (tokens : TokenRegistry) (latest : Nat) : Cursors where
  nextDepositNonce := cursors.nextDepositNonce
  nextL2Block := latest + 1
  tokens := tokens.snapshot

/-- What a version that did not store the registry would have written. -/
def withoutTokens (cursors : Cursors) : Cursors := { cursors with tokens := ∅ }

end Cursors

/-- The cursor file: absent, unreadable, or with its contents. -/
inductive CursorFile
  | missing
  | torn
  | written (cursors : Cursors)

def CursorFile.load : CursorFile → Cursors
  | .missing => .default
  | .torn => .default
  | .written cursors => cursors

/-- How a write of the cursor file ends; the relayer goes on in every case. -/
inductive Disk
  | written
  | unchanged
  | torn

inductive Rpc
  | ok
  | failed
  /-- The request took effect and its answer did not arrive. -/
  | lost

/-! ## The relayer -/

/-- A burn, as `parse_withdrawal_log` reads its log: the amount is the low 64 bits of the
event's. -/
structure Burn where
  block : Nat
  token : EvmAddress
  nonce : Nat
  suiRecipient : Bytes32
  amount : Nat
deriving DecidableEq

def Burn.ofLog : Nat × Log → Option Burn
  | (block, .bridge token (.withdrawalInitiated nonce _ suiRecipient amount)) =>
    some ⟨block, token, nonce, suiRecipient, amount % 2 ^ 64⟩
  | _ => none

def burnsOf (logs : List (Nat × Log)) : List Burn := logs.filterMap Burn.ofLog

inductive RelayTx
  | createBridge (name symbol coinType : Bytes)
  | mint (token recipient : EvmAddress) (amount nonce : Nat)

def RelayTx.toCall : RelayTx → L2Call
  | .createBridge name symbol coinType => .createBridge name symbol coinType
  | .mint token recipient amount nonce => .bridge token (.mint recipient amount nonce)

/-- `createBridge` for a coin type, as `ensure_token` sends it. -/
def RelayTx.create (coinType : Bytes) : RelayTx :=
  .createBridge (deriveTokenMetadata coinType).1 (deriveTokenMetadata coinType).2 coinType

/-- Where the task stands. `latest` is the deposit count or the head block the pass works up
to; `record` is the deposit under the cursor. -/
inductive Phase
  | idle
  /-- `relay_deposits`, at the top of its loop. -/
  | deposits (latest : Nat)
  /-- `ensure_token` found no token and is about to create one. -/
  | creating (latest : Nat) (record : DepositRecord)
  | awaitCreated (latest : Nat) (record : DepositRecord) (tx : Nat)
  /-- `eth_mint_cursor`, first read. -/
  | readLast (latest : Nat) (record : DepositRecord) (token : EvmAddress)
  /-- `eth_mint_cursor`, second read. -/
  | readAny (latest : Nat) (record : DepositRecord) (token : EvmAddress) (last : Nat)
  | minting (latest : Nat) (record : DepositRecord) (token : EvmAddress)
  | awaitMinted (latest : Nat) (record : DepositRecord) (token : EvmAddress) (tx : Nat)
  /-- `relay_withdrawals`, about to absorb the creations of its range. -/
  | absorbing (latest : Nat)
  /-- About to fetch the withdrawal logs. -/
  | fetching (latest : Nat)
  | releasing (latest : Nat) (burns : List Burn)

structure Relayer where
  cursors : Cursors
  tokens : TokenRegistry
  phase : Phase

inductive Process
  | down
  /-- `restore_token_registry` in its scan of the blocks `0..=head`. -/
  | indexing (cursors : Cursors) (head : Nat) (tokens : TokenRegistry) (chunk start : Nat)
  | running (relayer : Relayer)

def creationScanChunk : Nat := 2500
def minCreationScanChunk : Nat := 64
def creationScanHalveAfter : Nat := 500

/-! ## The world -/

structure BridgeWorld where
  vault : Vault
  chain : Chain
  /-- The transactions the relayer has sent, by number. -/
  sent : List RelayTx
  /-- The receipts of those that were mined. -/
  receipts : Nat → Option Receipt
  file : CursorFile
  /-- Every version of the file that was ever written. -/
  backups : List Cursors
  process : Process
  /-- The burns whose `withdraw` call succeeded, each with the coin type it was called for. -/
  served : List (Bytes × Burn)
  /-- Those among the executed calls that moved coins. -/
  paid : List Burn

/-- A transaction of a block: another account's, or one the relayer sent. -/
inductive Inclusion
  | outside (sender created : EvmAddress) (call : L2Call)
  | relayed (tx : Nat) (created : EvmAddress)

namespace BridgeWorld

def run (w : BridgeWorld) (relayer : Relayer) : BridgeWorld :=
  { w with process := .running relayer }

/-- The scan stands at block `start`. -/
def indexing (w : BridgeWorld) (cursors : Cursors) (head : Nat) (tokens : TokenRegistry)
    (chunk start : Nat) : BridgeWorld :=
  { w with process := .indexing cursors head tokens chunk start }

/-- The pass ends; the next one starts over from the cursors. -/
def idle (w : BridgeWorld) (relayer : Relayer) : BridgeWorld :=
  w.run { relayer with phase := .idle }

def persist (w : BridgeWorld) (disk : Disk) (cursors : Cursors) : BridgeWorld :=
  match disk with
  | .written => { w with file := .written cursors, backups := cursors :: w.backups }
  | .unchanged => w
  | .torn => { w with file := .torn }

def send (w : BridgeWorld) (tx : RelayTx) : BridgeWorld := { w with sent := w.sent ++ [tx] }

/-- The deposit under the cursor is minted: the cursor moves on, and is persisted together
with the registry. -/
def advance (w : BridgeWorld) (relayer : Relayer) (latest : Nat) (disk : Disk) : BridgeWorld :=
  let cursors := relayer.cursors.advanced relayer.tokens
  (w.persist disk cursors).run { relayer with cursors, phase := .deposits latest }

/-- The range is done: the block cursor moves past it. -/
def finish (w : BridgeWorld) (relayer : Relayer) (latest : Nat) (disk : Disk) : BridgeWorld :=
  let cursors := relayer.cursors.scanned relayer.tokens latest
  (w.persist disk cursors).run { relayer with cursors, phase := .idle }

end BridgeWorld

/-- Registry key and token of the creations in `logs`; unparseable coin types are skipped. -/
def claims (types : CoinTypeSyntax) (logs : List (Nat × Log)) : List (Bytes × EvmAddress) :=
  (Chain.creationsIn logs).filterMap fun creation =>
    (types.normalize creation.2).map fun coin => (coin, creation.1)

/-- `absorb_creations` on the logs of a range: twins are refused. -/
def absorb (types : CoinTypeSyntax) (tokens : TokenRegistry) (logs : List (Nat × Log)) :
    TokenRegistry :=
  tokens.insertAll (claims types logs)

namespace BridgeWorld

/-- `vault_status` answered: the pass works up to the deposit count it read. -/
def relayDeposits (w : BridgeWorld) (relayer : Relayer) (rpc : Rpc) : BridgeWorld :=
  match rpc with
  | .ok => w.run { relayer with phase := .deposits w.vault.depositNonce }
  | _ => w.idle relayer

/-- `eth_blockNumber` answered: the pass works up to the head it read. -/
def relayWithdrawals (w : BridgeWorld) (relayer : Relayer) (rpc : Rpc) : BridgeWorld :=
  match rpc with
  | .ok =>
    if w.chain.head < relayer.cursors.nextL2Block then w.idle relayer
    else w.run { relayer with phase := .absorbing w.chain.head }
  | _ => w.idle relayer

/-- `deposit_at` for the cursor's nonce, then the registry lookup of `ensure_token`. -/
def readDeposit (w : BridgeWorld) (relayer : Relayer) (latest : Nat) (rpc : Rpc) : BridgeWorld :=
  if latest ≤ relayer.cursors.nextDepositNonce then w.idle relayer
  else match rpc, w.vault.deposits relayer.cursors.nextDepositNonce with
    | .ok, some record =>
      match relayer.tokens.tokenFor record.coinType with
      | some token => w.run { relayer with phase := .readLast latest record token }
      | none => w.run { relayer with phase := .creating latest record }
    | _, _ => w.idle relayer

/-- `send_l2_tx`; `phase` is where the task goes with the number of the transaction. -/
def sendTx (w : BridgeWorld) (relayer : Relayer) (tx : RelayTx) (phase : Nat → Phase)
    (rpc : Rpc) : BridgeWorld :=
  match rpc with
  | .ok => (w.send tx).run { relayer with phase := phase w.sent.length }
  | .failed => w.idle relayer
  | .lost => (w.send tx).idle relayer

/-- The end of `ensure_token`: the token of the receipt is registered, unless another one
claims the coin type. -/
def ensureToken (w : BridgeWorld) (relayer : Relayer) (latest : Nat) (record : DepositRecord)
    (token : EvmAddress) : BridgeWorld :=
  match relayer.tokens.insert record.coinType token with
  | (tokens, true) => w.run { relayer with tokens, phase := .readLast latest record token }
  | (tokens, false) =>
    match tokens.tokenFor record.coinType with
    | some canonical =>
      w.run { relayer with tokens, phase := .readLast latest record canonical }
    | none => w.idle relayer

/-- `wait_for_receipt`, which gets to make one poll: the null that answers for a transaction not
mined yet is taken for an answer without a result, and ends the pass like a failed request; so
does a revert. -/
def pollReceipt (w : BridgeWorld) (relayer : Relayer) (tx : Nat) (rpc : Rpc)
    (success : Receipt → BridgeWorld) : BridgeWorld :=
  match rpc, w.receipts tx with
  | .ok, some receipt => if receipt.success then success receipt else w.idle relayer
  | _, _ => w.idle relayer

/-- `lastMintedDepositNonce()`, 0 when the read fails. -/
def readLast (w : BridgeWorld) (token : EvmAddress) (rpc : Rpc) : Nat :=
  match rpc, w.chain.contracts.bridges token with
  | .ok, some bridge => bridge.lastMintedDepositNonce
  | _, _ => 0

/-- `mintedAny()`, then the verdict on the pair read: a failed read counts as nothing minted. -/
def alreadyMinted (w : BridgeWorld) (token : EvmAddress) (last nonce : Nat) (rpc : Rpc) : Bool :=
  match rpc, w.chain.contracts.bridges token with
  | .ok, some bridge => bridge.mintedAny && nonce ≤ last
  | _, _ => false

/-- `process_withdrawal_log`: calls `withdraw` for one burn. A call that aborts, like one whose
answer is lost, ends the pass. -/
def release (types : CoinTypeSyntax) (w : BridgeWorld) (relayer : Relayer) (latest : Nat)
    (burn : Burn) (rest : List Burn) (rpc : Rpc) : BridgeWorld :=
  match relayer.tokens.coinFor burn.token with
  | none => w.idle relayer
  | some coin =>
    match rpc, types.parse coin with
    | .failed, _ => w.idle relayer
    | _, none => w.idle relayer
    | rpc, some T =>
      match w.vault.doWithdraw T (burn.suiRecipient.val.foldl (fun n b => 256 * n + b.toNat) 0)
        burn.amount burn.nonce with
      | .error _ => w.idle relayer
      | .ok (vault, moved) =>
        let executed := { w with vault, paid := if moved then burn :: w.paid else w.paid }
        match rpc with
        | .ok => { executed with served := (coin, burn) :: w.served }.run
            { relayer with phase := .releasing latest rest }
        | _ => executed.idle relayer

/-- The next request of the running pass. -/
def relay (types : CoinTypeSyntax) (w : BridgeWorld) (relayer : Relayer) (rpc : Rpc)
    (disk : Disk) : BridgeWorld :=
  let nonce := relayer.cursors.nextDepositNonce
  match relayer.phase with
  | .idle => w
  | .deposits latest => w.readDeposit relayer latest rpc
  | .creating latest record =>
    w.sendTx relayer (.create record.coinType) (.awaitCreated latest record) rpc
  | .awaitCreated latest record tx =>
    w.pollReceipt relayer tx rpc fun receipt =>
      match receipt.createdToken with
      | some token => w.ensureToken relayer latest record token
      | none => w.idle relayer
  | .readLast latest record token =>
    w.run { relayer with phase := .readAny latest record token (w.readLast token rpc) }
  | .readAny latest record token last =>
    if w.alreadyMinted token last nonce rpc then w.advance relayer latest disk
    else w.run { relayer with phase := .minting latest record token }
  | .minting latest record token =>
    match FixedBytes.ofBytes? 20 record.recipientL2 with
    | some recipient =>
      w.sendTx relayer (.mint token recipient record.amount nonce)
        (.awaitMinted latest record token) rpc
    | none => w.idle relayer
  | .awaitMinted latest _ _ tx =>
    w.pollReceipt relayer tx rpc fun _ => w.advance relayer latest disk
  | .absorbing latest =>
    match rpc with
    | .ok =>
      let tokens := absorb types relayer.tokens
        (w.chain.logsIn relayer.cursors.nextL2Block latest)
      w.run { relayer with tokens, phase := .fetching latest }
    | _ => w.idle relayer
  | .fetching latest =>
    if relayer.tokens.addresses.isEmpty then w.finish relayer latest disk
    else match rpc with
      | .ok =>
        let burns := (burnsOf (w.chain.logsIn relayer.cursors.nextL2Block latest)).filter
          fun burn => burn.token ∈ relayer.tokens.addresses
        w.run { relayer with phase := .releasing latest burns }
      | _ => w.idle relayer
  | .releasing latest [] => w.finish relayer latest disk
  | .releasing latest (burn :: rest) => release types w relayer latest burn rest rpc

/-- `restore_token_registry` up to its scan: a usable file restores the registry, otherwise
the scan starts with the head block read now. A malformed snapshot, like a failed read, is an
error, and the set-up starts over. -/
def boot (w : BridgeWorld) (rpc : Rpc) : BridgeWorld :=
  let cursors := w.file.load
  if !cursors.tokens.isEmpty && 0 < cursors.nextL2Block then
    match TokenRegistry.fromSnapshot cursors.tokens with
    | .ok tokens => w.run { cursors, tokens, phase := .idle }
    | .error _ => w
  else match rpc with
    | .ok => w.indexing cursors w.chain.head .empty creationScanChunk 0
    | _ => w

/-- One round of the scan of `restore_token_registry`, or, past the head, its end. -/
def index (types : CoinTypeSyntax) (w : BridgeWorld) (cursors : Cursors) (head : Nat)
    (tokens : TokenRegistry) (chunk start : Nat) (rpc : Rpc) (disk : Disk) : BridgeWorld :=
  if start ≤ head then
    let stop := min (min (start + (chunk - 1)) u64Max) head
    match rpc with
    | .ok =>
      let logs := w.chain.logsIn start stop
      let narrowed := creationScanHalveAfter ≤ (Chain.creationsIn logs).length ∧
        minCreationScanChunk < chunk
      let chunk := if narrowed then chunk / 2 else chunk
      w.indexing cursors head (absorb types tokens logs) chunk (stop + 1)
    | _ =>
      if minCreationScanChunk < chunk then w.indexing cursors head tokens (chunk / 2) start
      else { w with process := .down }
  else
    let cursors := cursors.scanned tokens head
    (w.persist disk cursors).run { cursors, tokens, phase := .idle }

/-- Runs one transaction of the block under construction. -/
def includeTx (R : EvmAddress) (w : BridgeWorld) : Inclusion → Option BridgeWorld
  | .outside sender created call =>
    if w.chain.contracts.Unprivileged R sender call then
      some { w with chain := (w.chain.execute sender created call).1 }
    else none
  | .relayed tx created =>
    match w.sent[tx]?, w.receipts tx with
    | some relayTx, none =>
      let (chain, receipt) := w.chain.execute R created relayTx.toCall
      some { w with chain, receipts := Function.update w.receipts tx (some receipt) }
    | _, _ => none

def sealBlock (w : BridgeWorld) : BridgeWorld := { w with chain := w.chain.closeBlock }

inductive Action
  | deposit (T : CoinType) (amount : Nat) (recipientL2 : Bytes)
  /-- The L2 mines a block. -/
  | mine (txs : List Inclusion)
  | loseFile
  | tearFile
  /-- The file is replaced by what an older version would have written. -/
  | downgradeFile
  /-- The file is replaced by an earlier version of it. -/
  | restoreFile (version : Nat)
  | crash
  | boot (rpc : Rpc)
  | index (rpc : Rpc) (disk : Disk)
  | relayDeposits (rpc : Rpc)
  | relayWithdrawals (rpc : Rpc)
  | relay (rpc : Rpc) (disk : Disk)

/-- One step, when it is enabled. `R` is the relayer's L2 account. -/
def exec (types : CoinTypeSyntax) (R : EvmAddress) (w : BridgeWorld) :
    Action → Option BridgeWorld
  | .deposit T amount recipientL2 =>
    if types.isName T ∧ amount ≤ u64Max then
      (w.vault.deposit T amount recipientL2).toOption.map fun vault => { w with vault }
    else none
  | .mine txs => (execAll (includeTx R) w txs).map sealBlock
  | .loseFile => some { w with file := .missing }
  | .tearFile => some { w with file := .torn }
  | .downgradeFile => match w.file with
    | .written cursors => some { w with file := .written cursors.withoutTokens }
    | _ => none
  | .restoreFile version =>
    w.backups[version]?.map fun cursors => { w with file := .written cursors }
  | .crash => some { w with process := .down }
  | .boot rpc => match w.process with
    | .down => some (w.boot rpc)
    | _ => none
  | .index rpc disk => match w.process with
    | .indexing cursors head tokens chunk start =>
      some (w.index types cursors head tokens chunk start rpc disk)
    | _ => none
  | .relayDeposits rpc => match w.process with
    | .running ⟨cursors, tokens, .idle⟩ =>
      some (w.relayDeposits ⟨cursors, tokens, .idle⟩ rpc)
    | _ => none
  | .relayWithdrawals rpc => match w.process with
    | .running ⟨cursors, tokens, .idle⟩ =>
      some (w.relayWithdrawals ⟨cursors, tokens, .idle⟩ rpc)
    | _ => none
  | .relay rpc disk => match w.process with
    | .running relayer => some (w.relay types relayer rpc disk)
    | _ => none

/-! ## What the steps do -/

/-- What one request of a pass can do to the world, with what it found out. -/
inductive Moves (types : CoinTypeSyntax) (w : BridgeWorld) (relayer : Relayer) (rpc : Rpc) :
    BridgeWorld → Prop
  | stay : Moves types w relayer rpc w
  | idle : Moves types w relayer rpc (w.idle relayer)
  | found {latest record token} : relayer.phase = .deposits latest →
      w.vault.deposits relayer.cursors.nextDepositNonce = some record →
      relayer.tokens.tokenFor record.coinType = some token →
      Moves types w relayer rpc (w.run { relayer with phase := .readLast latest record token })
  | lacking {latest record} : relayer.phase = .deposits latest →
      w.vault.deposits relayer.cursors.nextDepositNonce = some record →
      relayer.tokens.tokenFor record.coinType = none →
      Moves types w relayer rpc (w.run { relayer with phase := .creating latest record })
  | sentCreate {latest record} : relayer.phase = .creating latest record →
      Moves types w relayer rpc ((w.send (.create record.coinType)).run
        { relayer with phase := .awaitCreated latest record w.sent.length })
  | lostCreate {latest record} : relayer.phase = .creating latest record →
      Moves types w relayer rpc ((w.send (.create record.coinType)).idle relayer)
  | created {latest record tx receipt token} : relayer.phase = .awaitCreated latest record tx →
      rpc = .ok → w.receipts tx = some receipt → receipt.success →
      receipt.createdToken = some token →
      Moves types w relayer rpc (w.ensureToken relayer latest record token)
  | readLast {latest record token last} : relayer.phase = .readLast latest record token →
      (last = 0 ∨ ∃ bridge, w.chain.contracts.bridges token = some bridge ∧
        last = bridge.lastMintedDepositNonce) →
      Moves types w relayer rpc (w.run { relayer with phase := .readAny latest record token last })
  | minted {latest record token last bridge disk} :
      relayer.phase = .readAny latest record token last →
      w.chain.contracts.bridges token = some bridge → bridge.mintedAny →
      relayer.cursors.nextDepositNonce ≤ last →
      Moves types w relayer rpc (w.advance relayer latest disk)
  | unminted {latest record token last} : relayer.phase = .readAny latest record token last →
      Moves types w relayer rpc (w.run { relayer with phase := .minting latest record token })
  | sentMint {latest record token recipient} : relayer.phase = .minting latest record token →
      FixedBytes.ofBytes? 20 record.recipientL2 = some recipient →
      Moves types w relayer rpc
        ((w.send (.mint token recipient record.amount relayer.cursors.nextDepositNonce)).run
          { relayer with phase := .awaitMinted latest record token w.sent.length })
  | lostMint {latest record token recipient} : relayer.phase = .minting latest record token →
      FixedBytes.ofBytes? 20 record.recipientL2 = some recipient →
      Moves types w relayer rpc
        ((w.send (.mint token recipient record.amount relayer.cursors.nextDepositNonce)).idle
          relayer)
  | confirmed {latest record token tx receipt disk} :
      relayer.phase = .awaitMinted latest record token tx →
      w.receipts tx = some receipt → receipt.success →
      Moves types w relayer rpc (w.advance relayer latest disk)
  | absorbed {latest} : relayer.phase = .absorbing latest →
      Moves types w relayer rpc (w.run { relayer with
        tokens := absorb types relayer.tokens
          (w.chain.logsIn relayer.cursors.nextL2Block latest)
        phase := .fetching latest })
  | unlisted {latest disk} : relayer.phase = .fetching latest →
      relayer.tokens.addresses = [] → Moves types w relayer rpc (w.finish relayer latest disk)
  | fetched {latest} : relayer.phase = .fetching latest →
      Moves types w relayer rpc (w.run { relayer with
        phase := .releasing latest ((burnsOf
          (w.chain.logsIn relayer.cursors.nextL2Block latest)).filter
            fun burn => burn.token ∈ relayer.tokens.addresses) })
  | executed {latest burn rest coin T vault moved} :
      relayer.phase = .releasing latest (burn :: rest) →
      relayer.tokens.coinFor burn.token = some coin → types.parse coin = some T →
      (∃ recipient, w.vault.doWithdraw T recipient burn.amount burn.nonce = .ok (vault, moved)) →
      Moves types w relayer rpc
        ({ w with vault, paid := if moved then burn :: w.paid else w.paid }.idle relayer)
  | released {latest burn rest coin T vault moved} :
      relayer.phase = .releasing latest (burn :: rest) →
      relayer.tokens.coinFor burn.token = some coin → types.parse coin = some T →
      (∃ recipient, w.vault.doWithdraw T recipient burn.amount burn.nonce = .ok (vault, moved)) →
      Moves types w relayer rpc
        ({ w with
          vault, paid := if moved then burn :: w.paid else w.paid
          served := (coin, burn) :: w.served }.run
            { relayer with phase := .releasing latest rest })
  | done {latest disk} : relayer.phase = .releasing latest [] →
      Moves types w relayer rpc (w.finish relayer latest disk)

section
variable {types : CoinTypeSyntax} {w : BridgeWorld} {relayer : Relayer} {rpc : Rpc} {disk : Disk}

theorem readDeposit_moves {latest : Nat} (hp : relayer.phase = .deposits latest) :
    Moves types w relayer rpc (w.readDeposit relayer latest rpc) := by
  unfold readDeposit
  split
  · exact .idle
  · split
    · rename_i record hrec
      split
      · exact .found hp hrec ‹_›
      · exact .lacking hp hrec ‹_›
    · exact .idle

theorem pollReceipt_moves {tx : Nat} {success : Receipt → BridgeWorld}
    (h : ∀ receipt, rpc = .ok → w.receipts tx = some receipt → receipt.success →
      Moves types w relayer rpc (success receipt)) :
    Moves types w relayer rpc (w.pollReceipt relayer tx rpc success) := by
  unfold pollReceipt
  split
  · split
    · exact h _ rfl ‹_› ‹_›
    · exact .idle
  · exact .idle

theorem readLast_cases {token : EvmAddress} : w.readLast token rpc = 0 ∨
    ∃ bridge, w.chain.contracts.bridges token = some bridge ∧
      w.readLast token rpc = bridge.lastMintedDepositNonce := by
  unfold readLast
  split
  · exact .inr ⟨_, ‹_›, rfl⟩
  · exact .inl rfl

theorem alreadyMinted_cases {token : EvmAddress} {last nonce : Nat}
    (h : w.alreadyMinted token last nonce rpc) :
    ∃ bridge, w.chain.contracts.bridges token = some bridge ∧ bridge.mintedAny ∧
      nonce ≤ last := by
  unfold alreadyMinted at h
  split at h
  · simp only [Bool.and_eq_true, decide_eq_true_eq] at h
    exact ⟨_, ‹_›, h⟩
  · cases h

theorem release_moves {latest : Nat} {burn : Burn} {rest : List Burn}
    (hp : relayer.phase = .releasing latest (burn :: rest)) :
    Moves types w relayer rpc (release types w relayer latest burn rest rpc) := by
  unfold release
  split
  · exact .idle
  · rename_i coin hcoin
    split
    · exact .idle
    · exact .idle
    · rename_i T hparse
      split
      · exact .idle
      · rename_i vault moved hw
        dsimp only
        split
        · exact .released hp hcoin hparse ⟨_, hw⟩
        · exact .executed hp hcoin hparse ⟨_, hw⟩

/-- Every request does one of these. -/
theorem relay_moves : Moves types w relayer rpc (w.relay types relayer rpc disk) := by
  unfold relay
  dsimp only
  split
  · exact .stay
  · exact readDeposit_moves ‹_›
  · rename_i latest record hp
    cases rpc with
    | ok => exact .sentCreate hp
    | failed => exact .idle
    | lost => exact .lostCreate hp
  · rename_i latest record tx hp
    refine pollReceipt_moves fun receipt hok hr hs => ?_
    split
    · exact .created hp hok hr hs ‹_›
    · exact .idle
  · exact .readLast ‹_› readLast_cases
  · rename_i latest record token last hp
    split
    · obtain ⟨bridge, hb, hany, hle⟩ := alreadyMinted_cases ‹_›
      exact .minted hp hb hany hle
    · exact .unminted hp
  · rename_i latest record token hp
    split
    · rename_i recipient hr
      cases rpc with
      | ok => exact .sentMint hp hr
      | failed => exact .idle
      | lost => exact .lostMint hp hr
    · exact .idle
  · exact pollReceipt_moves fun receipt _ hr hs => .confirmed ‹_› hr hs
  · split
    · exact .absorbed ‹_›
    · exact .idle
  · split
    · exact .unlisted ‹_› (List.isEmpty_iff.1 ‹_›)
    · split
      · exact .fetched ‹_›
      · exact .idle
  · exact .done ‹_›
  · exact release_moves ‹_›

/-- A registered coin type was free, so the token of the receipt is taken. -/
theorem ensureToken_of_none {latest : Nat} {record : DepositRecord} {token : EvmAddress}
    (h : relayer.tokens.tokenFor record.coinType = none) :
    w.ensureToken relayer latest record token = w.run { relayer with
      tokens := relayer.tokens.record record.coinType token
      phase := .readLast latest record token } := by
  rw [ensureToken, TokenRegistry.insert_of_none h]

end

/-- What one step can do to the world, with what it found out. -/
inductive Effect (types : CoinTypeSyntax) (R : EvmAddress) (w : BridgeWorld) :
    Action → BridgeWorld → Prop
  | stay {a} : Effect types R w a w
  | deposit {T amount recipientL2 vault} : types.isName T → amount ≤ u64Max →
      w.vault.deposit T amount recipientL2 = .ok vault →
      Effect types R w (.deposit T amount recipientL2) { w with vault }
  | mine {txs w'} : Run (enabled (includeTx R)) w txs w' →
      Effect types R w (.mine txs) w'.sealBlock
  | lostFile {a file} : file = .missing ∨ file = .torn → Effect types R w a { w with file }
  | downgraded {a cursors} : w.file = .written cursors →
      Effect types R w a { w with file := .written cursors.withoutTokens }
  | restoredFile {a cursors} : cursors ∈ w.backups →
      Effect types R w a { w with file := .written cursors }
  | down {a} : Effect types R w a { w with process := .down }
  | restored {rpc tokens} : w.process = .down →
      TokenRegistry.fromSnapshot w.file.load.tokens = .ok tokens →
      w.file.load.tokens.isEmpty = false →
      Effect types R w (.boot rpc) (w.run ⟨w.file.load, tokens, .idle⟩)
  | scan {rpc} : w.process = .down → Effect types R w (.boot rpc)
      (w.indexing w.file.load w.chain.head .empty creationScanChunk 0)
  | scanned {rpc disk cursors head tokens chunk start chunk' stop} :
      w.process = .indexing cursors head tokens chunk start → stop ≤ head →
      Effect types R w (.index rpc disk) (w.indexing cursors head
        (absorb types tokens (w.chain.logsIn start stop)) chunk' (stop + 1))
  | narrowed {rpc disk cursors head tokens chunk start chunk'} :
      w.process = .indexing cursors head tokens chunk start →
      Effect types R w (.index rpc disk) (w.indexing cursors head tokens chunk' start)
  | indexed {rpc disk cursors head tokens chunk start} :
      w.process = .indexing cursors head tokens chunk start → head < start →
      Effect types R w (.index rpc disk) ((w.persist disk (cursors.scanned tokens head)).run
        ⟨cursors.scanned tokens head, tokens, .idle⟩)
  | rest {a relayer} : w.process = .running relayer → Effect types R w a (w.idle relayer)
  | beginDeposits {rpc cursors tokens} : w.process = .running ⟨cursors, tokens, .idle⟩ →
      Effect types R w (.relayDeposits rpc)
        (w.run ⟨cursors, tokens, .deposits w.vault.depositNonce⟩)
  | beginWithdrawals {rpc cursors tokens} : w.process = .running ⟨cursors, tokens, .idle⟩ →
      Effect types R w (.relayWithdrawals rpc) (w.run ⟨cursors, tokens, .absorbing w.chain.head⟩)
  | moves {rpc disk relayer w'} : w.process = .running relayer → Moves types w relayer rpc w' →
      Effect types R w (.relay rpc disk) w'

/-- Every enabled step does one of these. -/
theorem exec_effect {types : CoinTypeSyntax} {R : EvmAddress} {w w' : BridgeWorld} {a : Action}
    (h : exec types R w a = some w') : Effect types R w a w' := by
  cases a with
  | deposit T amount recipientL2 =>
    simp only [exec, Option.ite_none_right_eq_some, Option.map_eq_some_iff,
      toOption_eq_some] at h
    obtain ⟨⟨hname, hamount⟩, vault, hv, rfl⟩ := h
    exact .deposit hname hamount hv
  | mine txs =>
    simp only [exec, Option.map_eq_some_iff] at h
    obtain ⟨u, hu, rfl⟩ := h
    exact .mine (run_of_execAll hu)
  | loseFile =>
    cases h
    exact .lostFile (.inl rfl)
  | tearFile =>
    cases h
    exact .lostFile (.inr rfl)
  | downgradeFile =>
    simp only [exec] at h
    split at h
    · cases h
      exact .downgraded ‹_›
    · cases h
  | restoreFile version =>
    simp only [exec, Option.map_eq_some_iff] at h
    obtain ⟨cursors, hc, rfl⟩ := h
    exact .restoredFile (List.mem_of_getElem? hc)
  | crash =>
    cases h
    exact .down
  -- a file with tokens is taken as it is, one without starts the scan
  | boot rpc =>
    simp only [exec] at h
    split at h
    · rename_i hdown
      cases h
      unfold boot
      dsimp only
      split
      · rename_i husable
        simp only [Bool.and_eq_true, Bool.not_eq_true', decide_eq_true_eq] at husable
        split
        · exact .restored hdown ‹_› husable.1
        · exact .stay
      · split
        · exact .scan hdown
        · exact .stay
    · cases h
  -- a refused range is halved, and the smallest one refused ends the process
  | index rpc disk =>
    simp only [exec] at h
    split at h
    · rename_i hproc
      cases h
      unfold index
      dsimp only
      split
      · split
        · exact .scanned hproc (Nat.min_le_right ..)
        · split
          · exact .narrowed hproc
          · exact .down
      · exact .indexed hproc (Nat.not_le.1 ‹_›)
    · cases h
  | relayDeposits rpc =>
    simp only [exec] at h
    split at h
    · rename_i hproc
      cases h
      unfold relayDeposits
      split
      · exact .beginDeposits hproc
      · exact .rest hproc
    · cases h
  | relayWithdrawals rpc =>
    simp only [exec] at h
    split at h
    · rename_i hproc
      cases h
      unfold relayWithdrawals
      split
      · split
        · exact .rest hproc
        · exact .beginWithdrawals hproc
      · exact .rest hproc
    · cases h
  | relay rpc disk =>
    simp only [exec] at h
    split at h
    · rename_i hproc
      cases h
      exact .moves hproc relay_moves
    · cases h

def fresh (R : EvmAddress) (id : Address) (predeploy : EvmAddress) : BridgeWorld where
  vault := Vault.initializeVault id
  chain := Chain.genesis R predeploy
  sent := []
  receipts := fun _ => none
  file := .missing
  backups := []
  process := .down
  served := []
  paid := []

def Start (R : EvmAddress) (w : BridgeWorld) : Prop :=
  R ≠ .zero ∧ ∃ id predeploy, w = fresh R id predeploy

end BridgeWorld

end Podseq.Node
