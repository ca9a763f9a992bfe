import Podseq.Lib.BigEndian
import Podseq.Lib.Fallible
import Podseq.Lib.Hex

/-! # L2 logs

The relayer reads topics and data of a log as hex strings of words. A number is read from the last
eight bytes of its word; the rest of the word is not looked at.
-/
namespace Podseq.Node
open Podseq.Lib

/-- A log as `eth_getLogs` returns it; an absent field is empty. -/
structure RpcLog where
  address : String
  topics : List String
  data : String

/-- The word at an offset, in full. -/
def wordAt (bytes : Bytes) (offset : Nat) : Nat := ofBeBytes ((bytes.drop offset).take 32)

/-- `word_u64`: the low-order eight bytes. -/
def wordU64 (word : FixedBytes 32) : Nat := ofBeBytes (word.val.drop 24)

/-- The error of a call under the text of its `context`. -/
def withContext {α : Type} (text : String) (x : Except String α) : Except String α :=
  x.mapError fun _ => text

def hexToFixed32 (s : String) : Except String (FixedBytes 32) :=
  match Hex.decode s with
  | none => .error "topic not hex"
  | some bytes =>
    match FixedBytes.ofBytes? 32 bytes with
    | none => .error "topic not 32 bytes"
    | some word => .ok word

def logDataU64 (data : String) : Except String Nat :=
  match Hex.decode data with
  | none => .error "amount not hex"
  | some bytes =>
    if 32 ≤ bytes.length then .ok (ofBeBytes ((bytes.take 32).drop 24))
    else .error "log data shorter than 32 bytes"

/-- A topic of the log. -/
def RpcLog.topic (log : RpcLog) (i : Nat) (missing : String) : Except String String :=
  match log.topics[i]? with
  | some topic => .ok topic
  | none => .error missing

structure ParsedWithdrawal where
  nonce : Nat
  amount : Nat
  suiRecipient : FixedBytes 32
deriving DecidableEq

/-- `parse_withdrawal_log`, for `WithdrawalInitiated(uint64 indexed nonce, address indexed from,
bytes32 indexed suiRecipient, uint256 amount)`. -/
def parseWithdrawalLog (log : RpcLog) : Except String ParsedWithdrawal := do
  let nonceTopic ← log.topic 1 "missing nonce topic"
  let nonceWord ← hexToFixed32 nonceTopic
  let suiTopic ← log.topic 3 "missing suiRecipient topic"
  let suiWord ← hexToFixed32 suiTopic
  let amount ← withContext "missing/short amount" (logDataU64 log.data)
  return ⟨wordU64 nonceWord, amount, suiWord⟩

/-! ## What the log carries -/

variable {log log' : RpcLog} {n n' a a' : Nat} {r r' : FixedBytes 32} {s : String}

/-- The event of the log: its nonce and its amount as the full words, and its recipient. -/
structure RpcLog.Carries (log : RpcLog) (nonce : Nat) (recipient : FixedBytes 32) (amount : Nat) :
    Prop where
  nonce : ∃ topic word, log.topics[1]? = some topic ∧ Hex.decode topic = some word ∧
    word.length = 32 ∧ ofBeBytes word = nonce
  recipient : ∃ topic, log.topics[3]? = some topic ∧ Hex.decode topic = some recipient.val
  amount : ∃ bytes, Hex.decode log.data = some bytes ∧ 32 ≤ bytes.length ∧ wordAt bytes 0 = amount

theorem RpcLog.Carries.unique (h : log.Carries n r a) (h' : log.Carries n' r' a') :
    n = n' ∧ r = r' ∧ a = a' := by
  obtain ⟨⟨topic, word, ht, hw, -, rfl⟩, ⟨topic₃, ht₃, hr⟩, bytes, hb, -, rfl⟩ := h
  obtain ⟨⟨topic', word', ht', hw', -, rfl⟩, ⟨topic₃', ht₃', hr'⟩, bytes', hb', -, rfl⟩ := h'
  cases ht.symm.trans ht'
  cases hw.symm.trans hw'
  cases ht₃.symm.trans ht₃'
  cases hb.symm.trans hb'
  exact ⟨rfl, Subtype.ext (Option.some.inj (hr.symm.trans hr')), rfl⟩

/-- A number is read modulo `2 ^ 64`. -/
theorem wordU64_eq (word : FixedBytes 32) : wordU64 word = ofBeBytes word.val % 2 ^ 64 := by
  obtain ⟨word, hlength⟩ := word
  have hdrop : ofBeBytes (word.drop (word.length - 8)) = ofBeBytes word % 256 ^ 8 :=
    ofBeBytes_drop (by omega)
  rw [hlength] at hdrop
  exact hdrop

theorem wordAt_low {bytes : Bytes} (h : 32 ≤ bytes.length) :
    ofBeBytes ((bytes.take 32).drop 24) = wordAt bytes 0 % 2 ^ 64 :=
  wordU64_eq ⟨bytes.take 32, List.length_take_of_le h⟩

theorem hexToFixed32_eq_ok {word : FixedBytes 32} :
    hexToFixed32 s = .ok word ↔ Hex.decode s = some word.val := by
  unfold hexToFixed32
  cases Hex.decode s with
  | none => simp
  | some bytes =>
    simp only [Option.some.injEq, ← FixedBytes.ofBytes?_eq_some]
    cases FixedBytes.ofBytes? 32 bytes <;> simp

theorem logDataU64_eq_ok : logDataU64 s = .ok a ↔
    ∃ bytes, Hex.decode s = some bytes ∧ 32 ≤ bytes.length ∧ a = wordAt bytes 0 % 2 ^ 64 := by
  unfold logDataU64
  cases hd : Hex.decode s with
  | none => simp
  | some bytes =>
    by_cases hlength : 32 ≤ bytes.length
    · simp [hlength, wordAt_low hlength, eq_comm]
    · simp [hlength]

@[simp] theorem withContext_eq_ok {α : Type} {text : String} {x : Except String α} {v : α} :
    withContext text x = .ok v ↔ x = .ok v := by
  cases x <;> simp [withContext, Except.mapError]

@[simp] theorem RpcLog.topic_eq_ok {i : Nat} {missing : String} :
    log.topic i missing = .ok s ↔ log.topics[i]? = some s := by
  unfold RpcLog.topic
  cases log.topics[i]? <;> simp

/-- A parse succeeds exactly on a log that carries an event, and takes both numbers modulo
`2 ^ 64`. -/
theorem parseWithdrawalLog_eq_ok {p : ParsedWithdrawal} :
    parseWithdrawalLog log = .ok p ↔
      ∃ n r a, log.Carries n r a ∧ p = ⟨n % 2 ^ 64, a % 2 ^ 64, r⟩ := by
  simp only [parseWithdrawalLog, bind_eq_ok, RpcLog.topic_eq_ok, hexToFixed32_eq_ok,
    withContext_eq_ok, logDataU64_eq_ok, pure_eq_ok]
  constructor
  · intro h
    obtain ⟨topic, ht, word, hw, topic₃, ht₃, r, hr, a, ⟨bytes, hb, hlength, rfl⟩, rfl⟩ := h
    refine ⟨ofBeBytes word.val, r, wordAt bytes 0, ⟨⟨topic, word.val, ht, hw, word.property, rfl⟩,
      ⟨topic₃, ht₃, hr⟩, bytes, hb, hlength, rfl⟩, ?_⟩
    rw [wordU64_eq]
  · intro h
    obtain ⟨n, r, a, hcarries, rfl⟩ := h
    obtain ⟨⟨topic, word, ht, hw, hword, rfl⟩, ⟨topic₃, ht₃, hr⟩, bytes, hb, hlength, rfl⟩ :=
      hcarries
    refine ⟨topic, ht, ⟨word, hword⟩, hw, topic₃, ht₃, r, hr, _, ⟨bytes, hb, hlength, rfl⟩, ?_⟩
    rw [wordU64_eq]

/-! ## Decoding without loss -/

/-- The parse fails, or returns what the log carries. -/
def RpcLog.Lossless (log : RpcLog) : Prop :=
  ∀ p, parseWithdrawalLog log = .ok p → log.Carries p.nonce p.suiRecipient p.amount

/-- Logs with different events have different releases. -/
def RpcLog.Distinguished (log log' : RpcLog) : Prop :=
  ∀ n r a n' r' a', log.Carries n r a → log'.Carries n' r' a' → (n, r, a) ≠ (n', r', a') →
    ∀ p, parseWithdrawalLog log = .ok p → parseWithdrawalLog log' ≠ .ok p

def RpcLog.Fits64 (log : RpcLog) : Prop :=
  ∀ n r a, log.Carries n r a → n < 2 ^ 64 ∧ a < 2 ^ 64

theorem lossless_iff : log.Lossless ↔ log.Fits64 := by
  constructor
  · intro h n r a hc
    have hparsed := h _ (parseWithdrawalLog_eq_ok.2 ⟨n, r, a, hc, rfl⟩)
    obtain ⟨hn, -, ha⟩ := hc.unique hparsed
    rw [hn, ha]
    exact ⟨Nat.mod_lt _ (by decide), Nat.mod_lt _ (by decide)⟩
  · intro h p hp
    obtain ⟨n, r, a, hc, rfl⟩ := parseWithdrawalLog_eq_ok.1 hp
    obtain ⟨hn, ha⟩ := h n r a hc
    simp only [Nat.mod_eq_of_lt hn, Nat.mod_eq_of_lt ha]
    exact hc

theorem distinguished_of_lossless (h : log.Lossless) (h' : log'.Lossless) :
    log.Distinguished log' := by
  intro n r a n' r' a' hc hc' hne p hp hp'
  obtain ⟨rfl, rfl, rfl⟩ := hc.unique (h p hp)
  obtain ⟨rfl, rfl, rfl⟩ := hc'.unique (h' p hp')
  exact hne rfl

/-- **Withdrawal logs decode without loss exactly when their numbers have 64 bits.** Two logs are
both parsed as what they carry, and told apart, exactly if neither carries a nonce or an amount of
`2 ^ 64` or more. -/
theorem decodes_without_loss_iff (log log' : RpcLog) :
    (log.Lossless ∧ log'.Lossless ∧ log.Distinguished log') ↔ log.Fits64 ∧ log'.Fits64 := by
  rw [lossless_iff, lossless_iff]
  constructor
  · intro h
    exact ⟨h.1, h.2.1⟩
  · intro h
    exact ⟨h.1, h.2, distinguished_of_lossless (lossless_iff.2 h.1) (lossless_iff.2 h.2)⟩

def withdrawalLog (recipient : FixedBytes 32) (amount : Nat) : RpcLog where
  address := ""
  topics := [Hex.encode [], Hex.encodePrefixed (beBytes 32 7), Hex.encode [],
    Hex.encode recipient.val]
  data := Hex.encodePrefixed (beBytes 32 amount)

theorem withdrawalLog_carries {recipient : FixedBytes 32} {amount : Nat} (h : amount < 256 ^ 32) :
    (withdrawalLog recipient amount).Carries 7 recipient amount where
  nonce := ⟨_, _, rfl, Hex.decode_encodePrefixed _, length_beBytes, ofBeBytes_beBytes (by decide)⟩
  recipient := ⟨_, rfl, Hex.decode_encode _⟩
  amount := by
    refine ⟨_, Hex.decode_encodePrefixed _, length_beBytes.ge, ?_⟩
    rw [wordAt, List.drop_zero, List.take_of_length_le length_beBytes.le, ofBeBytes_beBytes h]

/-- A burn of `2 ^ 64 + 5` is parsed as one of 5, and so is a burn of 5. -/
theorem large_amount_truncated :
    (∃ p, parseWithdrawalLog (withdrawalLog (.zero 32) (2 ^ 64 + 5)) = .ok p ∧ p.amount = 5 ∧
      parseWithdrawalLog (withdrawalLog (.zero 32) 5) = .ok p) ∧
    ¬(withdrawalLog (.zero 32) (2 ^ 64 + 5)).Lossless ∧
    ¬(withdrawalLog (.zero 32) (2 ^ 64 + 5)).Distinguished (withdrawalLog (.zero 32) 5) := by
  have hlarge : (withdrawalLog (.zero 32) (2 ^ 64 + 5)).Carries 7 (.zero 32) (2 ^ 64 + 5) :=
    withdrawalLog_carries (by decide)
  have hsmall : (withdrawalLog (.zero 32) 5).Carries 7 (.zero 32) 5 :=
    withdrawalLog_carries (by decide)
  have hparse := parseWithdrawalLog_eq_ok.2 ⟨_, _, _, hlarge, rfl⟩
  have hparse' := parseWithdrawalLog_eq_ok.2 ⟨_, _, _, hsmall, rfl⟩
  refine ⟨⟨_, hparse, by decide, hparse'⟩, fun h => ?_, fun h => ?_⟩
  · have hamount := (hlarge.unique (h _ hparse)).2.2
    revert hamount
    decide
  · refine h _ _ _ _ _ _ hlarge hsmall ?_ _ hparse hparse'
    intro heq
    cases heq

end Podseq.Node
