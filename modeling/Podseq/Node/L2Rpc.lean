import Podseq.Lib.HexNumber
import Podseq.Node.CreationScan

/-! # What the relayer reads of the L2

The client of the L2 answers in hexadecimal: numbers as quantities, logs as words, the result of a
call as the words it returned. The relayer takes from a word the bytes it expects to matter. What a
`Bridge` and the factory emit, it reads as what was emitted.
-/
namespace Podseq.Node
open Podseq.Lib Podseq.Move Podseq.Solidity

namespace L2Rpc

/-! ## The readers -/

/-- `parse_hex_qty`: what is no number, or too large, is 0. -/
def parseHexQty (s : String) : Nat := (Hex.radix16 u64Max (Hex.trimPrefix s.toList)).getD 0

def parseLogAddress (s : String) : Except String EvmAddress :=
  match Hex.decode s with
  | none => .error "log address not hex"
  | some bytes =>
    match FixedBytes.ofBytes? 20 bytes with
    | none => .error "log address not 20 bytes"
    | some address => .ok address

/-- The signatures whose hashes the relayer filters by. -/
def withdrawalSignature : String := "WithdrawalInitiated(uint64,address,bytes32,uint256)"
def createdSignature : String := "BridgeCreated(address,string,string,string)"

variable (keccak : Bytes → FixedBytes 32)

def withdrawalTopic : FixedBytes 32 := keccak (Bcs.utf8 withdrawalSignature)

def createdTopic : FixedBytes 32 := keccak (Bcs.utf8 createdSignature)

structure RpcReceipt where
  status : String
  logs : List RpcLog

/-- `rpc_call` where what is asked for may be null: the envelope has an optional `result` already,
so a null is decoded as a result that is missing. -/
def optionResult {α : Type} (result : Option α) : Except String (Option α) :=
  match result with
  | some a => .ok (some a)
  | none => .error "L2 rpc returned no result"

/-- `ensure_receipt_success`: the status is `1` behind any number of `0x`. -/
def ensureReceiptSuccess (receipt : RpcReceipt) : Bool :=
  Hex.trimPrefix receipt.status.toList = ['1']

/-- `eth_call_u64` on the returned string. -/
def ethCallU64 (result : String) : Except String Nat :=
  match Hex.decode result with
  | none => .error "eth_call not hex"
  | some bytes =>
    if 32 ≤ bytes.length then .ok (ofBeBytes ((bytes.take 32).drop 24))
    else .error "eth_call u64 return too short"

/-- `eth_call_bool`: the last byte, where there is one. -/
def ethCallBool (result : String) : Except String Bool :=
  match Hex.decode result with
  | none => .error "eth_call not hex"
  | some bytes => .ok (bytes.getLast?.any fun b => b ≠ 0)

/-! ## What the client answers -/

def addressWord (address : EvmAddress) : Bytes := List.replicate 12 0 ++ address.val

/-- The canonical signature of an event. -/
def signature : Log → String
  | .factory (.bridgeCreated ..) => createdSignature
  | .factory (.relayerChanged ..) | .bridge _ (.relayerChanged ..) =>
    "RelayerChanged(address,address)"
  | .bridge _ (.transfer ..) => "Transfer(address,address,uint256)"
  | .bridge _ (.approval ..) => "Approval(address,address,uint256)"
  | .bridge _ (.depositMinted ..) => "DepositMinted(uint64,address,uint256,string)"
  | .bridge _ (.withdrawalInitiated ..) => withdrawalSignature

/-- The words of the indexed arguments. -/
def indexed : Log → List Bytes
  | .factory (.bridgeCreated token _ _ _) => [addressWord token]
  | .factory (.relayerChanged previous next) | .bridge _ (.relayerChanged previous next) =>
    [addressWord previous, addressWord next]
  | .bridge _ (.transfer source target _) => [addressWord source, addressWord target]
  | .bridge _ (.approval owner spender _) => [addressWord owner, addressWord spender]
  | .bridge _ (.depositMinted nonce recipient _ _) => [beBytes 32 nonce, addressWord recipient]
  | .bridge _ (.withdrawalInitiated nonce source suiRecipient _) =>
    [beBytes 32 nonce, addressWord source, suiRecipient.val]

/-- A string behind its length, padded to whole words. -/
def stringTail (s : Bytes) : Bytes :=
  beBytes 32 s.length ++ s ++ List.replicate ((32 - s.length % 32) % 32) 0

/-- Three strings: their offsets, and the strings. -/
def threeStrings (s n y : Bytes) : Bytes :=
  beBytes 32 96 ++ beBytes 32 (96 + (stringTail s).length) ++
    beBytes 32 (96 + (stringTail s).length + (stringTail n).length) ++
    stringTail s ++ stringTail n ++ stringTail y

def eventData : Log → Bytes
  | .factory (.bridgeCreated _ coinType name symbol) => threeStrings coinType name symbol
  | .factory (.relayerChanged ..) | .bridge _ (.relayerChanged ..) => []
  | .bridge _ (.transfer _ _ value) | .bridge _ (.approval _ _ value) => beBytes 32 value
  | .bridge _ (.depositMinted _ _ amount coinType) =>
    beBytes 32 amount ++ beBytes 32 64 ++ stringTail coinType
  | .bridge _ (.withdrawalInitiated _ _ _ amount) => beBytes 32 amount

variable (factory : EvmAddress)

def emitter : Log → EvmAddress
  | .factory _ => factory
  | .bridge token _ => token

/-- The hash that leads the topics. -/
def topic0 (log : Log) : FixedBytes 32 := keccak (Bcs.utf8 (signature log))

/-- A log as the client returns it. -/
def rpcLog (log : Log) : RpcLog where
  address := Hex.encodePrefixed (emitter factory log).val
  topics := ((topic0 keccak log).val :: indexed log).map Hex.encodePrefixed
  data := Hex.encodePrefixed (eventData log)

def emittedBy (addresses : List EvmAddress) (log : Log) : Bool :=
  addresses.any fun address => address = emitter factory log

/-- `eth_getLogs` by emitters and by the first topic. -/
def getLogs (chain : Chain) (addresses : List EvmAddress) (topic : FixedBytes 32) (lo hi : Nat) :
    List RpcLog :=
  ((chain.logsIn lo hi).filter fun log =>
    emittedBy factory addresses log.2 && topic0 keccak log.2 = topic).map
      fun log => rpcLog keccak factory log.2

/-- `eth_getTransactionReceipt` of a transaction that was mined. -/
def rpcReceipt (receipt : Receipt) : RpcReceipt where
  status := if receipt.success then "0x1" else "0x0"
  logs := receipt.logs.map (rpcLog keccak factory)

/-- What a call of `lastMintedDepositNonce` returns; without a contract there, nothing. -/
def callLastMinted (chain : Chain) (token : EvmAddress) : String :=
  match chain.contracts.bridges token with
  | some bridge => Hex.encodePrefixed (beBytes 32 bridge.lastMintedDepositNonce)
  | none => "0x"

def callMintedAny (chain : Chain) (token : EvmAddress) : String :=
  match chain.contracts.bridges token with
  | some bridge => Hex.encodePrefixed (beBytes 32 (if bridge.mintedAny then 1 else 0))
  | none => "0x"

/-! ## Words -/

variable {keccak factory} {n amount nonce : Nat} {chain : Chain} {token source : EvmAddress}
  {coinType name symbol : Bytes} {log : Log} {lo hi : Nat}

theorem mod_of_le_u64Max (h : n ≤ u64Max) : n % 2 ^ 64 = n :=
  Nat.mod_eq_of_lt (show n < 2 ^ 64 from Nat.lt_succ_of_le h)

theorem parseHexQty_quantity (h : n ≤ u64Max) : parseHexQty (Hex.quantity n) = n := by
  rw [parseHexQty, Hex.trimPrefix_quantity, Hex.radix16_toDigits h, Option.getD_some]

theorem length_addressWord (address : EvmAddress) : (addressWord address).length = 32 := by
  rw [addressWord, List.length_append, List.length_replicate, address.property]

theorem hexToFixed32_encodePrefixed (word : FixedBytes 32) :
    hexToFixed32 (Hex.encodePrefixed word.val) = .ok word :=
  hexToFixed32_eq_ok.2 (Hex.decode_encodePrefixed _)

theorem decodeWordAddress_addressWord (address : EvmAddress) :
    decodeWordAddress ⟨addressWord address, length_addressWord address⟩ = address :=
  Subtype.ext (List.drop_left' List.length_replicate)

theorem parseLogAddress_rpcLog :
    parseLogAddress (rpcLog keccak factory log).address = .ok (emitter factory log) := by
  rw [parseLogAddress, rpcLog, Hex.decode_encodePrefixed]
  simp only [FixedBytes.ofBytes?_val]

/-- A number of 64 bits is read from the low half of its word. -/
theorem ofBeBytes_low (h : n ≤ u64Max) : ofBeBytes (((beBytes 32 n).take 32).drop 24) = n := by
  have hlow : ofBeBytes (((beBytes 32 n).take 32).drop 24) = _ := wordAt_low length_beBytes.ge
  rw [hlow, wordAt, List.drop_zero, List.take_of_length_le length_beBytes.le,
    ofBeBytes_beBytes (h.trans_lt (by decide)), mod_of_le_u64Max h]

theorem ethCallU64_word (h : n ≤ u64Max) :
    ethCallU64 (Hex.encodePrefixed (beBytes 32 n)) = .ok n := by
  rw [ethCallU64, Hex.decode_encodePrefixed]
  simp only [length_beBytes, Nat.le_refl, if_true, ofBeBytes_low h]

theorem ethCallBool_word (b : Bool) :
    ethCallBool (Hex.encodePrefixed (beBytes 32 (if b then 1 else 0))) = .ok b := by
  rw [ethCallBool, Hex.decode_encodePrefixed]
  cases b <;> rfl

theorem ensureReceiptSuccess_rpcReceipt (receipt : Receipt) :
    ensureReceiptSuccess (rpcReceipt keccak factory receipt) = receipt.success := by
  have hone : Hex.trimPrefix ['0', 'x', '1'] = ['1'] := by decide
  have hzero : Hex.trimPrefix ['0', 'x', '0'] ≠ ['1'] := by decide
  cases hsuccess : receipt.success <;>
    simp [ensureReceiptSuccess, rpcReceipt, hsuccess, hone, hzero]

/-! ## Withdrawals -/

theorem parseWithdrawalLog_rpcLog {suiRecipient : Bytes32} (hnonce : nonce ≤ u64Max)
    (hamount : amount ≤ u256Max) :
    parseWithdrawalLog (rpcLog keccak factory
      (.bridge token (.withdrawalInitiated nonce source suiRecipient amount))) =
        .ok ⟨nonce, amount % 2 ^ 64, suiRecipient⟩ := by
  have hword : nonce < 256 ^ 32 := hnonce.trans_lt (by decide)
  have hbytes : amount < 256 ^ 32 := hamount.trans_lt (by decide)
  refine parseWithdrawalLog_eq_ok.2 ⟨nonce, suiRecipient, amount, ⟨?_, ?_, ?_⟩, ?_⟩
  · exact ⟨_, _, rfl, Hex.decode_encodePrefixed _, length_beBytes, ofBeBytes_beBytes hword⟩
  · exact ⟨_, rfl, Hex.decode_encodePrefixed _⟩
  · refine ⟨_, Hex.decode_encodePrefixed _, length_beBytes.ge, ?_⟩
    rw [wordAt, List.drop_zero]
    exact (congrArg ofBeBytes (List.take_of_length_le length_beBytes.le)).trans
      (ofBeBytes_beBytes hbytes)
  · rw [mod_of_le_u64Max hnonce]

/-! ## Creations -/

theorem length_threeStrings : (threeStrings coinType name symbol).length =
    96 + (stringTail coinType).length + (stringTail name).length + (stringTail symbol).length := by
  simp only [threeStrings, List.length_append, length_beBytes]

theorem length_stringTail {s : Bytes} : (stringTail s).length =
    32 + s.length + (32 - s.length % 32) % 32 := by
  simp only [stringTail, List.length_append, length_beBytes, List.length_replicate]

/-- The first string, with what leads to it. -/
theorem threeStrings_words (hlength : coinType.length ≤ u64Max) :
    96 + 32 + coinType.length ≤ (threeStrings coinType name symbol).length ∧
      wordAt (threeStrings coinType name symbol) 0 = 96 ∧
      wordAt (threeStrings coinType name symbol) 96 = coinType.length ∧
      textAt (threeStrings coinType name symbol) 96 coinType.length = coinType := by
  let second := beBytes 32 (96 + (stringTail coinType).length)
  let third := beBytes 32 (96 + (stringTail coinType).length + (stringTail name).length)
  let padding := List.replicate ((32 - coinType.length % 32) % 32) (0 : UInt8)
  let others := stringTail name ++ stringTail symbol
  have hwords : threeStrings coinType name symbol =
      [] ++ (beBytes 32 96 ++ (second ++ (third ++ (stringTail coinType ++ others)))) := by
    simp only [threeStrings, List.append_assoc, List.nil_append, second, third, others]
  have htail : threeStrings coinType name symbol = (beBytes 32 96 ++ second ++ third) ++
      (beBytes 32 coinType.length ++ (coinType ++ (padding ++ others))) := by
    simp only [threeStrings, stringTail, List.append_assoc, second, third, padding, others]
  have hhead : (beBytes 32 96 ++ second ++ third).length = 96 := by
    simp only [List.length_append, length_beBytes, second, third]
  refine ⟨?_, ?_, ?_, ?_⟩
  · rw [length_threeStrings, length_stringTail]
    omega
  · rw [hwords]
    exact wordAt_append (by decide)
  · rw [htail, ← hhead]
    exact wordAt_append (hlength.trans_lt (by decide))
  · have hpre : (beBytes 32 96 ++ second ++ third ++ beBytes 32 coinType.length).length =
        96 + 32 := by
      rw [List.length_append, hhead, length_beBytes]
    rw [textAt, htail, ← List.append_assoc, ← hpre, List.drop_left, List.take_left]

/-- The decoder follows the first offset to the first string. -/
theorem decodeFirstAbiString_threeStrings
    (hbound : (threeStrings coinType name symbol).length ≤ u64Max) :
    decodeFirstAbiString (Hex.encodePrefixed (threeStrings coinType name symbol)) =
      some (fromUtf8 coinType) := by
  have hshort : coinType.length ≤ u64Max := by
    rw [length_threeStrings, length_stringTail] at hbound
    omega
  obtain ⟨hlong, hoff, hlen, htext⟩ := @threeStrings_words coinType name symbol hshort
  have hoff' : 96 = wordAt (threeStrings coinType name symbol) 0 % 2 ^ 64 := by
    rw [hoff, mod_of_le_u64Max (by decide)]
  have hlen' : coinType.length = wordAt (threeStrings coinType name symbol) 96 % 2 ^ 64 := by
    rw [hlen, mod_of_le_u64Max hshort]
  rw [decodeFirstAbiString_eq (Hex.decode_encodePrefixed _) (by omega) hoff' hlen',
    if_pos (by omega), if_pos (by omega), htext]

/-- The creation is read off its log, unless the coin type is no text. -/
theorem parseBridgeCreatedLog_rpcLog
    (hbound : (threeStrings coinType name symbol).length ≤ u64Max) :
    parseBridgeCreatedLog (createdTopic keccak)
        (rpcLog keccak factory (.factory (.bridgeCreated token coinType name symbol))) =
      (withContext "decoding coinType" (fromUtf8 coinType)).map fun coin => (coin, token) := by
  have htopic : hexToFixed32 (Hex.encodePrefixed (createdTopic keccak).val) =
      .ok (createdTopic keccak) := hexToFixed32_encodePrefixed _
  have htoken : hexToFixed32 (Hex.encodePrefixed (addressWord token)) =
      .ok ⟨addressWord token, length_addressWord token⟩ := hexToFixed32_encodePrefixed ⟨_, _⟩
  have hdata : decodeFirstAbiString (rpcLog keccak factory
      (.factory (.bridgeCreated token coinType name symbol))).data = some (fromUtf8 coinType) :=
    decodeFirstAbiString_threeStrings hbound
  have h₀ : (rpcLog keccak factory (.factory (.bridgeCreated token coinType name symbol))).topic 0
      "missing topics" = .ok (Hex.encodePrefixed (createdTopic keccak).val) := rfl
  have h₁ : (rpcLog keccak factory (.factory (.bridgeCreated token coinType name symbol))).topic 1
      "missing token topic" = .ok (Hex.encodePrefixed (addressWord token)) := rfl
  simp only [parseBridgeCreatedLog, h₀, h₁, ok_bind, htopic, htoken, hdata, require, if_true,
    Option.get_some, decodeWordAddress_addressWord]
  cases fromUtf8 coinType <;> rfl

/-- Another event is no creation. -/
theorem parseBridgeCreatedLog_other (h : topic0 keccak log ≠ createdTopic keccak) :
    ∃ e, parseBridgeCreatedLog (createdTopic keccak) (rpcLog keccak factory log) = .error e := by
  have htopic : hexToFixed32 (Hex.encodePrefixed (topic0 keccak log).val) =
      .ok (topic0 keccak log) := hexToFixed32_encodePrefixed _
  have h₀ : (rpcLog keccak factory log).topic 0 "missing topics" =
      .ok (Hex.encodePrefixed (topic0 keccak log).val) := rfl
  simp only [parseBridgeCreatedLog, h₀, ok_bind, htopic, require, if_neg h]
  exact ⟨_, rfl⟩

/-! ## Filters -/

/-- The hash tells the signatures of the events apart. -/
def SignaturesApart (keccak : Bytes → FixedBytes 32) : Prop :=
  ∀ log log' : Log, topic0 keccak log = topic0 keccak log' → signature log = signature log'

theorem topic0_created (hapart : SignaturesApart keccak) :
    topic0 keccak log = createdTopic keccak ↔ log.creation.isSome := by
  constructor
  · intro h
    have hsame := hapart log (.factory (.bridgeCreated .zero [] [] [])) h
    cases log with
    | factory event =>
      cases event with
      | bridgeCreated => rfl
      | relayerChanged => simp [signature, createdSignature] at hsame
    | bridge token event =>
      cases event <;> simp [signature, createdSignature, withdrawalSignature] at hsame
  · intro h
    cases log with
    | factory event =>
      cases event with
      | bridgeCreated => rfl
      | relayerChanged => cases h
    | bridge token event => cases h

@[simp] theorem emittedBy_iff {addresses : List EvmAddress} :
    emittedBy factory addresses log = true ↔ emitter factory log ∈ addresses := by
  simp [emittedBy]

/-- The logs of a factory by the topic of creations are its creations. -/
theorem getLogs_created (hapart : SignaturesApart keccak) :
    getLogs keccak factory chain [factory] (createdTopic keccak) lo hi =
      ((chain.logsIn lo hi).filter fun log => log.2.creation.isSome).map
        fun log => rpcLog keccak factory log.2 := by
  rw [getLogs]
  refine congrArg (List.map _) (List.filter_congr fun log _ => ?_)
  rw [Bool.eq_iff_iff, Bool.and_eq_true, decide_eq_true_iff, emittedBy_iff,
    topic0_created hapart, List.mem_singleton]
  constructor
  · exact And.right
  · intro h
    obtain ⟨block, _ | ⟨token, event⟩⟩ := log
    · exact ⟨rfl, h⟩
    · cases h

/-- A log that is read as a burn. -/
def Reads (log : RpcLog) (burn : Burn) : Prop :=
  parseLogAddress log.address = .ok burn.token ∧
    parseWithdrawalLog log = .ok ⟨burn.nonce, burn.amount, burn.suiRecipient⟩

/-- The numbers of a withdrawal have the widths of their types. -/
def WithdrawalFits : Log → Prop
  | .bridge _ (.withdrawalInitiated nonce _ _ amount) => nonce ≤ u64Max ∧ amount ≤ u256Max
  | _ => True

variable (factory) in
/-- Of one log: it passes the filter as a burn of the tokens asked for, or is no such burn. -/
theorem reads_withdrawal (hapart : SignaturesApart keccak) (hfits : WithdrawalFits log)
    (block : Nat) :
    (∃ burn, Burn.ofLog (block, log) = some burn ∧ emitter factory log = burn.token ∧
      topic0 keccak log = withdrawalTopic keccak ∧ Reads (rpcLog keccak factory log) burn) ∨
    (Burn.ofLog (block, log) = none ∧ topic0 keccak log ≠ withdrawalTopic keccak) := by
  have hother : signature log ≠ withdrawalSignature →
      topic0 keccak log ≠ withdrawalTopic keccak := fun hne heq =>
    hne (hapart log (.bridge .zero (.withdrawalInitiated 0 .zero (.zero 32) 0)) heq)
  cases log with
  | factory event =>
    refine .inr ⟨rfl, hother ?_⟩
    cases event <;> simp [signature, createdSignature, withdrawalSignature]
  | bridge token event =>
    cases event with
    | withdrawalInitiated nonce source suiRecipient amount =>
      exact .inl ⟨_, rfl, rfl, rfl, parseLogAddress_rpcLog,
        parseWithdrawalLog_rpcLog hfits.1 hfits.2⟩
    | _ => exact .inr ⟨rfl, hother (by simp [signature, withdrawalSignature])⟩

/-- The logs of tokens by the topic of withdrawals are read as their burns, one by one. -/
theorem getLogs_withdrawals (hapart : SignaturesApart keccak)
    (hfits : ∀ log ∈ chain.logs, WithdrawalFits log.2) (addresses : List EvmAddress) :
    List.Forall₂ Reads (getLogs keccak factory chain addresses (withdrawalTopic keccak) lo hi)
      ((burnsOf (chain.logsIn lo hi)).filter fun burn => burn.token ∈ addresses) := by
  have hall : ∀ log ∈ chain.logsIn lo hi, WithdrawalFits log.2 := fun log hlog =>
    hfits log (List.mem_filter.1 hlog).1
  rw [getLogs, burnsOf]
  generalize chain.logsIn lo hi = logs at hall ⊢
  induction logs with
  | nil => exact .nil
  | cons log logs ih =>
    have hrest := ih fun log' hlog' => hall log' (List.mem_cons_of_mem _ hlog')
    obtain ⟨burn, hburn, htoken, htopic, hreads⟩ | ⟨hnone, htopic⟩ :=
      reads_withdrawal factory hapart (hall log List.mem_cons_self) log.1
    · rw [List.filterMap_cons_some hburn]
      by_cases hmem : burn.token ∈ addresses
      · rw [List.filter_cons_of_pos (by simp [htoken, htopic, hmem]),
          List.filter_cons_of_pos (by simp [hmem])]
        exact .cons hreads hrest
      · rwa [List.filter_cons_of_neg (by simp [htoken, hmem]),
          List.filter_cons_of_neg (by simp [hmem])]
    · rwa [List.filterMap_cons_none hnone, List.filter_cons_of_neg (by simp [htopic])]

end L2Rpc

end Podseq.Node
