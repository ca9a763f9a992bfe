import Podseq.Lib.LoopRounds
import Podseq.Node.BridgeRelayer
import Podseq.Node.MoveTypeName

/-! # The scan of the factory's history

Without a usable snapshot the registry is indexed from block 0 to the head, a range at a time.
A range that fails is asked again, half as long; the next range starts behind the last one that
was answered. So the answered ranges are consecutive, however they were cut.
-/
namespace Podseq.Node
open Podseq.Lib Podseq.Solidity

/-- `decode_word_address`: the low 20 bytes of a word. -/
def decodeWordAddress (word : FixedBytes 32) : EvmAddress :=
  ⟨word.val.drop 12, by rw [List.length_drop, word.property]⟩

/-- `parse_bridge_created_log`: coin type string and token; `created` is the topic of
`BridgeCreated(address,string,string,string)`. -/
def parseBridgeCreatedLog (created : FixedBytes 32) (log : RpcLog) :
    Except String (String × EvmAddress) := do
  let topic ← log.topic 0 "missing topics"
  let word ← hexToFixed32 topic
  require (word = created) "not a BridgeCreated log"
  let tokenTopic ← log.topic 1 "missing token topic"
  let tokenWord ← hexToFixed32 tokenTopic
  let coin ← withContext "decoding coinType"
    ((decodeFirstAbiString log.data).get (decodeFirstAbiString_isSome log.data))
  return (coin, decodeWordAddress tokenWord)

/-- Coin type and token of a log; an undecodable log, and one with an unparseable coin type, has
none. `normalize` is `normalize_coin_type`. -/
def RpcLog.creation (normalize : String → Option Bytes) (created : FixedBytes 32) (log : RpcLog) :
    Option (Bytes × EvmAddress) :=
  match parseBridgeCreatedLog created log with
  | .ok (coinStr, token) =>
    match normalize coinStr with
    | some coin => some (coin, token)
    | none => none
  | .error _ => none

/-- The registry with the creations of the logs; twins are refused. -/
def TokenRegistry.absorb (normalize : String → Option Bytes) (created : FixedBytes 32)
    (registry : TokenRegistry) (logs : List RpcLog) : TokenRegistry :=
  logs.foldl (fun registry log =>
    match log.creation normalize created with
    | some (coin, token) => (registry.insert coin token).1
    | none => registry) registry

/-- `absorb_creations`, on the answer to its request; also the number of logs. -/
def absorbCreations (normalize : String → Option Bytes) (created : FixedBytes 32)
    (registry : TokenRegistry) (answer : Except String (List RpcLog)) :
    Except String (TokenRegistry × Nat) := do
  let logs ← answer
  return (registry.absorb normalize created logs, logs.length)

def TypeSdk.normalize (sdk : TypeSdk) (coinType : String) : Option Bytes :=
  (sdk.normalizeCoinType coinType).toOption

/-- What the L2 node answers. -/
structure L2Answers where
  /-- `eth_blockNumber`. -/
  blockNumber : Except String Nat
  /-- `eth_getLogs` for the factory's `BridgeCreated` logs: the answer to each request, by its
  number, for a range of blocks. -/
  getLogs : Nat → Nat → Nat → Except String (List RpcLog)

/-- The variables of the loop of `restore_token_registry`. -/
structure CreationScan where
  registry : TokenRegistry
  chunk : Nat
  start : Nat

namespace CreationScan

def stop (scan : CreationScan) (head : Nat) : Nat :=
  min (saturatingAdd scan.start (scan.chunk - 1)) head

def chunkAfter (scan : CreationScan) (found : Nat) : Nat :=
  if creationScanHalveAfter ≤ found ∧ minCreationScanChunk < scan.chunk then scan.chunk / 2
  else scan.chunk

/-- One round of the loop. The next start wraps around behind the last `u64`. -/
def round (sdk : TypeSdk) (created : FixedBytes 32) (l2 : L2Answers) (head n : Nat)
    (scan : CreationScan) : Round CreationScan (Except String TokenRegistry) :=
  if scan.start ≤ head then
    let stop := scan.stop head
    match absorbCreations sdk.normalize created scan.registry (l2.getLogs n scan.start stop) with
    | .ok (registry, found) =>
      .next { registry, chunk := scan.chunkAfter found, start := (stop + 1) % 2 ^ 64 }
    | .error _ =>
      if minCreationScanChunk < scan.chunk then .next { scan with chunk := scan.chunk / 2 }
      else .done (.error "indexing BridgeCreated history")
  else .done (.ok scan.registry)

def first : CreationScan := ⟨.empty, creationScanChunk, 0⟩

end CreationScan

/-- `restore_token_registry`, if its loop ends within `fuel` rounds: the registry, and the cursors
as they are persisted. -/
def restoreTokenRegistry (sdk : TypeSdk) (created : FixedBytes 32) (l2 : L2Answers)
    (cursors : Cursors) (fuel : Nat) : Option (Except String (TokenRegistry × Cursors)) :=
  if !cursors.tokens.isEmpty && 0 < cursors.nextL2Block then
    some (do
      let registry ← TokenRegistry.fromSnapshot cursors.tokens
      return (registry, cursors))
  else
    match l2.blockNumber with
    | .error e => some (.error e)
    | .ok head =>
      (loop (CreationScan.round sdk created l2 head) fuel 0 .first).map fun result => do
        let registry ← result
        return (registry, cursors.scanned registry head)

/-! ## The ranges that were answered -/

structure AnsweredRange where
  first : Nat
  last : Nat
  logs : List RpcLog

def AnsweredRange.blocks (range : AnsweredRange) : List Nat :=
  List.range' range.first (range.last + 1 - range.first)

def L2Answers.answered (l2 : L2Answers) (head : Nat) (made : Nat × CreationScan) :
    Option AnsweredRange :=
  match l2.getLogs made.1 made.2.start (made.2.stop head) with
  | .ok logs => some ⟨made.2.start, made.2.stop head, logs⟩
  | .error _ => none

/-- The ranges that were answered, in the order of the requests. -/
def answeredRanges (sdk : TypeSdk) (created : FixedBytes 32) (l2 : L2Answers) (head fuel : Nat) :
    List AnsweredRange :=
  (rounds (CreationScan.round sdk created l2 head) fuel 0 .first).filterMap (l2.answered head)

/-- Whatever the request, its answer has the logs of its blocks, block by block. -/
def L2Answers.Truthful (l2 : L2Answers) (history : Nat → List RpcLog) : Prop :=
  ∀ n first last logs, l2.getLogs n first last = .ok logs →
    logs = (List.range' first (last + 1 - first)).flatMap history

/-! ## One round -/

variable {sdk : TypeSdk} {normalize : String → Option Bytes} {created : FixedBytes 32}
  {l2 : L2Answers} {head n fuel : Nat} {scan scan' : CreationScan}
  {made : List (Nat × CreationScan)} {registry : TokenRegistry} {logs logs' : List RpcLog}
  {result : Except String TokenRegistry}

theorem absorb_append : registry.absorb normalize created (logs ++ logs') =
    (registry.absorb normalize created logs).absorb normalize created logs' := List.foldl_append

/-- The creations of the logs are inserted one after the other. -/
theorem absorb_eq_insertAll : registry.absorb normalize created logs =
    registry.insertAll (logs.filterMap (·.creation normalize created)) := by
  induction logs generalizing registry with
  | nil => rfl
  | cons log logs ih =>
    rw [TokenRegistry.absorb, List.foldl_cons, List.filterMap_cons]
    cases log.creation normalize created with
    | none => exact ih
    | some creation => exact ih

theorem absorb_empty_reflects : (TokenRegistry.empty.absorb normalize created logs).Reflects
    (logs.filterMap (·.creation normalize created)) := by
  rw [absorb_eq_insertAll]
  exact TokenRegistry.insertAll_reflects

/-- A round that leads to another one advances past its range, or halves the chunk. -/
theorem round_eq_next (h : scan.round sdk created l2 head n = .next scan') : scan.start ≤ head ∧
    ((∃ logs, l2.getLogs n scan.start (scan.stop head) = .ok logs ∧
        scan' = ⟨scan.registry.absorb sdk.normalize created logs, scan.chunkAfter logs.length,
          (scan.stop head + 1) % 2 ^ 64⟩) ∨
      (∃ e, l2.getLogs n scan.start (scan.stop head) = .error e) ∧
        minCreationScanChunk < scan.chunk ∧ scan' = { scan with chunk := scan.chunk / 2 }) := by
  unfold CreationScan.round at h
  by_cases hstart : scan.start ≤ head
  · rw [if_pos hstart] at h
    refine ⟨hstart, ?_⟩
    cases hanswer : l2.getLogs n scan.start (scan.stop head) with
    | ok logs =>
      simp only [hanswer, absorbCreations, ok_bind, pure, Except.pure, Round.next.injEq] at h
      exact .inl ⟨logs, rfl, h.symm⟩
    | error e =>
      simp only [hanswer, absorbCreations, bind, Except.bind] at h
      by_cases hchunk : minCreationScanChunk < scan.chunk
      · rw [if_pos hchunk, Round.next.injEq] at h
        exact .inr ⟨⟨e, rfl⟩, hchunk, h.symm⟩
      · rw [if_neg hchunk] at h
        cases h
  · rw [if_neg hstart] at h
    cases h

/-- A round that ends the loop with a registry stands behind the head. -/
theorem round_eq_done_ok (h : scan.round sdk created l2 head n = .done (.ok registry)) :
    head < scan.start ∧ scan.registry = registry := by
  unfold CreationScan.round at h
  by_cases hstart : scan.start ≤ head
  · rw [if_pos hstart] at h
    cases hanswer : absorbCreations sdk.normalize created scan.registry
        (l2.getLogs n scan.start (scan.stop head)) with
    | ok answer =>
      simp only [hanswer] at h
      cases h
    | error e =>
      simp only [hanswer] at h
      split_ifs at h
      cases h
  · rw [if_neg hstart, Round.done.injEq, Except.ok.injEq] at h
    exact ⟨by omega, h⟩

theorem start_le_stop (hstart : scan.start ≤ head) (hmax : head < u64Max) :
    scan.start ≤ scan.stop head := by
  unfold CreationScan.stop saturatingAdd
  omega

theorem stop_le : scan.stop head ≤ head := Nat.min_le_right _ _

theorem next_start (hmax : head < u64Max) : (scan.stop head + 1) % 2 ^ 64 = scan.stop head + 1 := by
  have hstop : scan.stop head ≤ head := stop_le
  have hbound : u64Max = 2 ^ 64 - 1 := rfl
  exact Nat.mod_eq_of_lt (by omega)

theorem chunkAfter_le {found : Nat} : scan.chunkAfter found ≤ scan.chunk := by
  unfold CreationScan.chunkAfter
  split_ifs
  · exact Nat.div_le_self _ _
  · exact le_rfl

theorem chunkAfter_pos {found : Nat} (h : 0 < scan.chunk) : 0 < scan.chunkAfter found := by
  unfold CreationScan.chunkAfter
  split_ifs with hhalve
  · have hmin : minCreationScanChunk = 64 := rfl
    omega
  · exact h

/-! ## The whole scan -/

/-- What is left to do: blocks to cover, and halvings. -/
def CreationScan.todo (head : Nat) (scan : CreationScan) : Nat :=
  head + 1 - scan.start + scan.chunk

theorem todo_decreases (hmax : head < u64Max) (h : scan.round sdk created l2 head n = .next scan') :
    scan'.todo head < scan.todo head := by
  obtain ⟨hstart, hcases⟩ := round_eq_next h
  rcases hcases with ⟨logs, -, rfl⟩ | ⟨-, hchunk, rfl⟩
  · have hadvance := start_le_stop hstart hmax
    have hstop : scan.stop head ≤ head := stop_le
    have hchunk : scan.chunkAfter logs.length ≤ scan.chunk := chunkAfter_le
    simp only [CreationScan.todo, next_start hmax]
    omega
  · simp only [CreationScan.todo]
    omega

/-- The rounds made so far have covered the blocks before the next start, each once and in order,
and the registry holds what their logs create. -/
structure Scanned (sdk : TypeSdk) (created : FixedBytes 32) (l2 : L2Answers) (head : Nat)
    (made : List (Nat × CreationScan)) (scan : CreationScan) : Prop where
  start_le : scan.start ≤ head + 1
  /-- So the subtraction in the range does not underflow. -/
  chunk_pos : 0 < scan.chunk
  forward : ∀ range ∈ made.filterMap (l2.answered head), range.first ≤ range.last
  blocks : (made.filterMap (l2.answered head)).flatMap AnsweredRange.blocks =
    List.range scan.start
  registry : scan.registry = TokenRegistry.empty.absorb sdk.normalize created
    ((made.filterMap (l2.answered head)).flatMap AnsweredRange.logs)

theorem scanned_first : Scanned sdk created l2 head [] .first :=
  ⟨Nat.zero_le _, by decide, List.forall_mem_nil _, rfl, rfl⟩

/-- A range behind the blocks before it. -/
theorem range_append_blocks {first last : Nat} {logs : List RpcLog} (h : first ≤ last) :
    List.range first ++ AnsweredRange.blocks ⟨first, last, logs⟩ = List.range (last + 1) := by
  have hend : last + 1 = first + (last + 1 - first) := by omega
  have happend := List.range'_append_1 (s := 0) (m := first) (n := last + 1 - first)
  rw [Nat.zero_add, ← hend] at happend
  rw [List.range_eq_range', List.range_eq_range']
  exact happend

theorem scanned_next (hmax : head < u64Max) (hI : Scanned sdk created l2 head made scan)
    (h : scan.round sdk created l2 head n = .next scan') :
    Scanned sdk created l2 head (made ++ [(n, scan)]) scan' := by
  obtain ⟨hstart, hcases⟩ := round_eq_next h
  rcases hcases with ⟨logs, hanswer, rfl⟩ | ⟨⟨e, hanswer⟩, hchunk, rfl⟩
  · have hforward := start_le_stop hstart hmax
    have hranges : (made ++ [(n, scan)]).filterMap (l2.answered head) =
        made.filterMap (l2.answered head) ++ [⟨scan.start, scan.stop head, logs⟩] := by
      rw [List.filterMap_append, List.filterMap_cons_some (by rw [L2Answers.answered, hanswer])]
      rfl
    refine ⟨?_, chunkAfter_pos hI.chunk_pos, ?_, ?_, ?_⟩
    · rw [next_start hmax]
      exact Nat.succ_le_succ stop_le
    · rw [hranges]
      intro range hrange
      rcases List.mem_append.1 hrange with hrange | hrange
      · exact hI.forward range hrange
      · rw [List.mem_singleton.1 hrange]
        exact hforward
    · rw [hranges, List.flatMap_append, hI.blocks, List.flatMap_singleton, next_start hmax]
      exact range_append_blocks hforward
    · rw [hranges, List.flatMap_append, List.flatMap_singleton, absorb_append, ← hI.registry]
  · have hranges : (made ++ [(n, scan)]).filterMap (l2.answered head) =
        made.filterMap (l2.answered head) := by
      rw [List.filterMap_append, List.filterMap_cons_none (by rw [L2Answers.answered, hanswer]),
        List.filterMap_nil, List.append_nil]
    have hmin : minCreationScanChunk = 64 := rfl
    have hpos : 0 < scan.chunk / 2 := by omega
    exact ⟨hI.start_le, hpos, hranges ▸ hI.forward, hranges ▸ hI.blocks, hranges ▸ hI.registry⟩

/-- Truthful answers are the logs of the blocks they cover. -/
theorem flatMap_logs {history : Nat → List RpcLog} (htrue : l2.Truthful history) :
    (made.filterMap (l2.answered head)).flatMap AnsweredRange.logs =
      ((made.filterMap (l2.answered head)).flatMap AnsweredRange.blocks).flatMap history := by
  rw [List.flatMap_assoc]
  refine List.flatMap_congr fun range hrange => ?_
  obtain ⟨⟨n, scan⟩, -, hrange⟩ := List.mem_filterMap.1 hrange
  unfold L2Answers.answered at hrange
  cases hanswer : l2.getLogs n scan.start (scan.stop head) with
  | ok logs =>
    simp only [hanswer, Option.some.injEq] at hrange
    subst hrange
    exact htrue _ _ _ _ hanswer
  | error e =>
    simp only [hanswer] at hrange
    cases hrange

/-- A restore that has to scan is the scan, then the write of the cursors. -/
theorem restoreTokenRegistry_eq {cursors : Cursors} (hhead : l2.blockNumber = .ok head)
    (hscan : cursors.tokens.isEmpty = true ∨ cursors.nextL2Block = 0) :
    restoreTokenRegistry sdk created l2 cursors fuel =
      (loop (CreationScan.round sdk created l2 head) fuel 0 .first).map fun result =>
        result.map fun registry => (registry, cursors.scanned registry head) := by
  have hunusable : ¬(!cursors.tokens.isEmpty && 0 < cursors.nextL2Block) = true := by
    rcases hscan with hscan | hscan <;> simp [hscan]
  rw [restoreTokenRegistry, if_neg hunusable]
  simp only [hhead]
  rfl

/-- **The scan covers the history and ends.** Whatever the node answers to each request, a number
of rounds bounded by the head and the first chunk gives a result. A registry that results is that
of ranges which were answered one behind the other and cover the blocks up to the head, each once
and in order: it is the fold of their logs, and has the first token of each coin type that they
create. Where the answers are the logs of their blocks, it has those of all blocks. -/
theorem restore_covers_history (sdk : TypeSdk) (created : FixedBytes 32) (l2 : L2Answers)
    (cursors : Cursors) (head : Nat) (hhead : l2.blockNumber = .ok head) (hmax : head < u64Max)
    (hscan : cursors.tokens.isEmpty = true ∨ cursors.nextL2Block = 0) :
    (∃ result, ∀ fuel, head + 1 + creationScanChunk < fuel →
      restoreTokenRegistry sdk created l2 cursors fuel = some result) ∧
    ∀ fuel registry cursors',
      restoreTokenRegistry sdk created l2 cursors fuel = some (.ok (registry, cursors')) →
        (∀ range ∈ answeredRanges sdk created l2 head fuel, range.first ≤ range.last) ∧
        (answeredRanges sdk created l2 head fuel).flatMap AnsweredRange.blocks =
          List.range (head + 1) ∧
        registry = TokenRegistry.empty.absorb sdk.normalize created
          ((answeredRanges sdk created l2 head fuel).flatMap AnsweredRange.logs) ∧
        registry.Reflects (((answeredRanges sdk created l2 head fuel).flatMap
          AnsweredRange.logs).filterMap (·.creation sdk.normalize created)) ∧
        (∀ history, l2.Truthful history →
          registry = TokenRegistry.empty.absorb sdk.normalize created
            ((List.range (head + 1)).flatMap history) ∧
          registry.Reflects (((List.range (head + 1)).flatMap history).filterMap
            (·.creation sdk.normalize created))) ∧
        cursors' = cursors.scanned registry head := by
  refine ⟨?_, fun fuel registry cursors' h => ?_⟩
  · obtain ⟨result, hresult⟩ : ∃ result, ∀ fuel, CreationScan.first.todo head < fuel →
        loop (CreationScan.round sdk created l2 head) fuel 0 .first = some result :=
      loop_result (J := fun _ => True) trivial fun _ _ _ _ h => ⟨trivial, todo_decreases hmax h⟩
    refine ⟨result.map fun registry => (registry, cursors.scanned registry head), ?_⟩
    intro fuel hfuel
    rw [restoreTokenRegistry_eq hhead hscan, hresult fuel hfuel, Option.map_some]
  · rw [restoreTokenRegistry_eq hhead hscan, Option.map_eq_some_iff] at h
    obtain ⟨result, hloop, hresult⟩ := h
    obtain ⟨registry', rfl, heq⟩ : ∃ registry', result = .ok registry' ∧
        (registry', cursors.scanned registry' head) = (registry, cursors') := by
      cases result with
      | error e => cases hresult
      | ok registry' => exact ⟨registry', rfl, Except.ok.inj hresult⟩
    obtain ⟨rfl, rfl⟩ := Prod.mk.inj heq
    obtain ⟨m, scan, hscanned, hdone⟩ := loop_inv scanned_first
      (fun _ _ _ _ hI hnext => scanned_next hmax hI hnext) hloop
    obtain ⟨hbehind, rfl⟩ := round_eq_done_ok hdone
    -- the loop ends right behind the head
    have hstart : scan.start = head + 1 := by
      have hle := hscanned.start_le
      omega
    have hblocks := hscanned.blocks
    rw [hstart] at hblocks
    have hregistry := hscanned.registry
    refine ⟨hscanned.forward, hblocks, hregistry, hregistry ▸ absorb_empty_reflects,
      fun history htrue => ?_, rfl⟩
    rw [flatMap_logs htrue, hblocks] at hregistry
    exact ⟨hregistry, hregistry ▸ absorb_empty_reflects⟩

/-! ## A history with a twin -/

/-- The log of a creation: the topic of the event, the word of the token, the coin type. -/
def creationLog (created token : FixedBytes 32) (coinType : String) : RpcLog where
  address := ""
  topics := [Hex.encodePrefixed created.val, Hex.encodePrefixed token.val]
  data := Hex.encodePrefixed (abiEncode coinType "" "")

theorem creation_creationLog {token : FixedBytes 32} {coinType : String}
    (hbound : (abiEncode coinType "" "").length ≤ u64Max) :
    (creationLog created token coinType).creation normalize created =
      (normalize coinType).map fun coin => (coin, decodeWordAddress token) := by
  have hword : ∀ word : FixedBytes 32, hexToFixed32 (Hex.encodePrefixed word.val) = .ok word :=
    fun word => hexToFixed32_eq_ok.2 (Hex.decode_encodePrefixed _)
  have hparse : parseBridgeCreatedLog created (creationLog created token coinType) =
      .ok (coinType, decodeWordAddress token) := by
    simp only [parseBridgeCreatedLog, creationLog, RpcLog.topic, List.getElem?_cons_zero,
      List.getElem?_cons_succ, ok_bind, hword, require, if_true,
      decodeFirstAbiString_abiEncode hbound, Option.get_some]
    rfl
  simp only [RpcLog.creation, hparse]
  cases normalize coinType <;> rfl

/-- The string `0x2::sui::SUI` is a coin type. -/
theorem normalize_spelled_sui :
    (TypeSdk.single suiTag 1).normalize suiTag.spelled = some suiTag.toTypeTag.coinType := by
  have hflexible :
      (TypeSdk.single suiTag 1).parseStructTagFlexible suiTag.spelled = .ok suiTag := by
    have hprefixed : ['0', 'x'] <+: suiTag.spelled.toList := by
      rw [StructTag.spelled, String.toList_ofList]
      exact List.prefix_append _ _
    rw [TypeSdk.parseStructTagFlexible, if_pos hprefixed]
    simp only [TypeSdk.single, if_true]
  rw [TypeSdk.normalize, TypeSdk.normalizeCoinType, hflexible, ok_bind, trimPrefix_print]
  rfl

/-- A node at block 3000 that refuses ranges of more than 1000 blocks. -/
def narrowNode (history : List (Nat × RpcLog)) : L2Answers where
  blockNumber := .ok 3000
  getLogs _ first last :=
    if last - first < 1000 then
      .ok ((history.filter fun log => first ≤ log.1 && log.1 ≤ last).map Prod.snd)
    else .error "eth_getLogs"

def tokenWord (n : Nat) : FixedBytes 32 := ⟨beBytes 32 n, length_beBytes⟩

/-- Token 1, an event that does not decode, and a twin. -/
def twinHistory : List (Nat × RpcLog) :=
  [(40, creationLog (.zero 32) (tokenWord 1) suiTag.spelled), (900, ⟨"", [], ""⟩),
    (2950, creationLog (.zero 32) (tokenWord 2) suiTag.spelled)]

theorem creation_twinHistory : (twinHistory.map Prod.snd).filterMap
    (·.creation (TypeSdk.single suiTag 1).normalize (.zero 32)) =
      [(suiTag.toTypeTag.coinType, decodeWordAddress (tokenWord 1)),
        (suiTag.toTypeTag.coinType, decodeWordAddress (tokenWord 2))] := by
  have hbound : (abiEncode suiTag.spelled "" "").length ≤ u64Max := by decide +kernel
  have hlog : ∀ token, (creationLog (.zero 32) token suiTag.spelled).creation
      (TypeSdk.single suiTag 1).normalize (.zero 32) =
        some (suiTag.toTypeTag.coinType, decodeWordAddress token) := by
    intro token
    rw [creation_creationLog hbound, normalize_spelled_sui, Option.map_some]
  rw [twinHistory, List.map_cons, List.map_cons, List.map_cons, List.map_nil,
    List.filterMap_cons_some (hlog _), List.filterMap_cons_none rfl,
    List.filterMap_cons_some (hlog _), List.filterMap_nil]

/-- Two requests are refused, five are answered; the registry has the first token only. -/
theorem restore_covers_history_twin :
    ∃ registry cursors', restoreTokenRegistry (.single suiTag 1) (.zero 32)
        (narrowNode twinHistory) .default 8 = some (.ok (registry, cursors')) ∧
      registry.tokenFor suiTag.toTypeTag.coinType = some (decodeWordAddress (tokenWord 1)) ∧
      registry.coinFor (decodeWordAddress (tokenWord 2)) = none := by
  obtain ⟨registry, cursors', hrestored⟩ : ∃ registry cursors',
      restoreTokenRegistry (.single suiTag 1) (.zero 32) (narrowNode twinHistory) .default 8 =
        some (.ok (registry, cursors')) := ⟨_, _, rfl⟩
  have hlogs : (answeredRanges (.single suiTag 1) (.zero 32) (narrowNode twinHistory) 3000
      8).flatMap AnsweredRange.logs = twinHistory.map Prod.snd := rfl
  obtain ⟨-, -, -, hreflects, -, -⟩ := (restore_covers_history (.single suiTag 1) (.zero 32)
    (narrowNode twinHistory) .default 3000 rfl (by decide) (.inr rfl)).2 8 _ _ hrestored
  rw [hlogs, creation_twinHistory] at hreflects
  refine ⟨registry, cursors', hrestored, ?_, ?_⟩
  · rw [hreflects.tokenFor, List.lookup_cons_self]
  · have hne : decodeWordAddress (tokenWord 1) ≠ decodeWordAddress (tokenWord 2) := by decide
    rw [hreflects.coinFor, TokenRegistry.lastCoin]
    simp [hne]

end Podseq.Node
