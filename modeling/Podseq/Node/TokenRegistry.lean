import Podseq.Lib.Hex
import Podseq.Solidity.BridgeFactory

/-! # `TokenRegistry`: the tokens the relayer honours

Two maps, one a direction. An insertion is refused only when the coin type is claimed by
another token, so a list of insertions keeps, for each coin type, the token already there or
else the first of the list. The registry is persisted as a map of hexadecimal strings.
-/
namespace Podseq.Node
open Podseq.Lib Podseq.Solidity

/-- The persisted form of a registry. -/
abbrev Snapshot := Std.TreeMap String String compare

structure TokenRegistry where
  byCoinType : Std.TreeMap Bytes EvmAddress compare
  byAddress : Std.TreeMap EvmAddress Bytes compare

namespace TokenRegistry

def empty : TokenRegistry := ⟨∅, ∅⟩

/-- Writes an entry in both directions. -/
def record (registry : TokenRegistry) (coinType : Bytes) (token : EvmAddress) : TokenRegistry where
  byCoinType := registry.byCoinType.insert coinType token
  byAddress := registry.byAddress.insert token coinType

/-- Records a factory-created token; `false` when another token claims the coin type. -/
def insert (registry : TokenRegistry) (coinType : Bytes) (token : EvmAddress) :
    TokenRegistry × Bool :=
  match registry.byCoinType[coinType]? with
  | some existing =>
    if existing ≠ token then (registry, false) else (registry.record coinType token, true)
  | none => (registry.record coinType token, true)

def tokenFor (registry : TokenRegistry) (coinType : Bytes) : Option EvmAddress :=
  registry.byCoinType[coinType]?

def coinFor (registry : TokenRegistry) (token : EvmAddress) : Option Bytes :=
  registry.byAddress[token]?

def addresses (registry : TokenRegistry) : List EvmAddress := registry.byAddress.keys

def encodeEntry (e : Bytes × EvmAddress) : String × String :=
  (Hex.encode e.1, Hex.encodePrefixed e.2.val)

def snapshot (registry : TokenRegistry) : Snapshot :=
  .ofList (registry.byCoinType.toList.map encodeEntry) compare

/-- Reads one persisted entry; a malformed one is an error that names it. -/
def decodeEntry (e : String × String) : Except String (Bytes × EvmAddress) :=
  match Hex.decodeBare e.1 with
  | none => .error ("corrupt token registry entry " ++ e.1)
  | some coin =>
    match (Hex.decodePrefixed e.2).bind (FixedBytes.ofBytes? 20) with
    | none => .error ("corrupt token registry entry " ++ e.2)
    | some token => .ok (coin, token)

def insertAll (registry : TokenRegistry) (entries : List (Bytes × EvmAddress)) : TokenRegistry :=
  entries.foldl (fun r e => (r.insert e.1 e.2).1) registry

def fromSnapshot (snapshot : Snapshot) : Except String TokenRegistry := do
  let entries ← snapshot.toList.mapM decodeEntry
  return insertAll empty entries

/-! ## Lookups after insertions -/

variable {registry : TokenRegistry} {entries : List (Bytes × EvmAddress)} {coinType c c' : Bytes}
  {token t t' : EvmAddress}

@[simp] theorem tokenFor_empty : empty.tokenFor c = none := by simp [tokenFor, empty]

theorem tokenFor_record : (registry.record coinType token).tokenFor c =
    if c = coinType then some token else registry.tokenFor c := by
  simp only [tokenFor, record, Std.TreeMap.getElem?_insert, Std.compare_eq_iff_eq,
    eq_comm (a := c)]

theorem coinFor_record : (registry.record coinType token).coinFor t =
    if t = token then some coinType else registry.coinFor t := by
  simp only [coinFor, record, Std.TreeMap.getElem?_insert, Std.compare_eq_iff_eq,
    eq_comm (a := t)]

theorem insert_of_none (h : registry.tokenFor coinType = none) :
    registry.insert coinType token = (registry.record coinType token, true) := by
  have hnone : registry.byCoinType[coinType]? = none := h
  simp only [insert, hnone]

/-- The entry of the inserted coin type is the one it had, or the new one. -/
theorem tokenFor_insert : (registry.insert coinType token).1.tokenFor c =
    (registry.tokenFor c).or (if c = coinType then some token else none) := by
  unfold insert
  split
  · rename_i existing hex
    have hold : registry.tokenFor coinType = some existing := hex
    split
    · by_cases hc : c = coinType
      · rw [hc, hold, Option.some_or]
      · rw [if_neg hc, Option.or_none]
    · rename_i he
      rw [tokenFor_record]
      by_cases hc : c = coinType
      · rw [hc, hold, if_pos rfl, Option.some_or, not_not.1 he]
      · rw [if_neg hc, if_neg hc, Option.or_none]
  · rename_i hnone
    rw [tokenFor_record]
    by_cases hc : c = coinType
    · have hold : registry.tokenFor coinType = none := hnone
      rw [hc, hold, if_pos rfl, Option.none_or]
    · rw [if_neg hc, if_neg hc, Option.or_none]

/-- The first entry of a coin type wins. -/
theorem tokenFor_insertAll :
    (registry.insertAll entries).tokenFor c = (registry.tokenFor c).or (entries.lookup c) := by
  induction entries generalizing registry with
  | nil => rw [List.lookup_nil, Option.or_none]; rfl
  | cons e entries ih =>
    change ((registry.insert e.1 e.2).1.insertAll entries).tokenFor c = _
    rw [ih, tokenFor_insert, List.lookup_cons, Option.or_assoc]
    by_cases hc : c = e.1
    · simp [hc]
    · simp [hc, beq_false_of_ne hc]

@[simp] theorem tokenFor_insertAll_empty :
    (empty.insertAll entries).tokenFor c = entries.lookup c := by
  rw [tokenFor_insertAll, tokenFor_empty, Option.none_or]

theorem insertAll_concat : registry.insertAll (entries ++ [(coinType, token)]) =
    ((registry.insertAll entries).insert coinType token).1 := by
  rw [insertAll, List.foldl_concat]
  rfl

/-- The token is recorded under the coin type, unless another one claims it. -/
theorem coinFor_insert : (registry.insert coinType token).1.coinFor t =
    if t = token ∧ (registry.tokenFor coinType).all (· = token) then some coinType
      else registry.coinFor t := by
  unfold insert tokenFor
  cases hex : registry.byCoinType[coinType]? with
  | none => simp [coinFor_record]
  | some existing =>
    by_cases he : existing = token
    · simp [he, coinFor_record]
    · simp [he]

/-- The coin type of the last entry of the token that is the first of its coin type. -/
def lastCoin (entries : List (Bytes × EvmAddress)) (token : EvmAddress) : Option Bytes :=
  (entries.reverse.find? fun e => e.2 = token && entries.lookup e.1 = some token).map Prod.fst

theorem lookup_of_mem {e : Bytes × EvmAddress} (h : e ∈ entries) :
    ∃ first, entries.lookup e.1 = some first := by
  rw [← Option.isSome_iff_exists, List.lookup_isSome_iff]
  exact ⟨e, h, beq_self_eq_true _⟩

/-- Of the coin types that a token is the first of, the last one wins. -/
theorem coinFor_insertAll_empty : (empty.insertAll entries).coinFor t = lastCoin entries t := by
  induction entries using List.reverseRecOn with
  | nil => simp [insertAll, coinFor, empty, lastCoin]
  | append_singleton entries e ih =>
    obtain ⟨coinType, token⟩ := e
    -- the entries before are the first of their coin types as they were
    have hbefore : (entries.reverse.find? fun e => e.2 = t &&
        (entries ++ [(coinType, token)]).lookup e.1 = some t) =
          entries.reverse.find? fun e => e.2 = t && entries.lookup e.1 = some t := by
      refine List.find?_congr fun e he => ?_
      obtain ⟨first, hfirst⟩ := lookup_of_mem (List.mem_reverse.1 he)
      rw [List.lookup_append, hfirst, Option.some_or]
    have hlast : (token = t && (entries ++ [(coinType, token)]).lookup coinType = some t) =
        decide (t = token ∧ (entries.lookup coinType).all (· = token)) := by
      rw [List.lookup_append]
      cases entries.lookup coinType with
      | none => simp [eq_comm]
      | some first =>
        by_cases ht : t = token
        · subst ht
          simp
        · simp [ht, Ne.symm ht]
    rw [insertAll_concat, coinFor_insert, tokenFor_insertAll_empty, ih, lastCoin, lastCoin,
      List.reverse_append, List.reverse_singleton, List.singleton_append, List.find?_cons, hbefore,
      hlast]
    by_cases hnew : t = token ∧ (entries.lookup coinType).all (· = token)
    · rw [if_pos hnew, decide_eq_true hnew]
      rfl
    · rw [if_neg hnew, decide_eq_false hnew]

/-- The registry has the first token of each coin type of the list, and the last of the coin types
that a token is the first of. -/
structure Reflects (registry : TokenRegistry) (entries : List (Bytes × EvmAddress)) : Prop where
  tokenFor : ∀ c, registry.tokenFor c = entries.lookup c
  coinFor : ∀ t, registry.coinFor t = lastCoin entries t

theorem insertAll_reflects : (empty.insertAll entries).Reflects entries :=
  ⟨fun _ => tokenFor_insertAll_empty, fun _ => coinFor_insertAll_empty⟩

/-! ## The two directions -/

/-- The two maps are inverse to each other. -/
def Paired (registry : TokenRegistry) : Prop :=
  ∀ c t, registry.coinFor t = some c ↔ registry.tokenFor c = some t

theorem empty_paired : Paired empty := by simp [Paired, coinFor, tokenFor, empty]

/-- An insertion keeps the maps inverse when the token is claimed under no other coin type. -/
theorem Paired.insert (hp : registry.Paired)
    (hfree : ∀ c, registry.tokenFor c = some token → c = coinType) :
    Paired (registry.insert coinType token).1 := by
  have hrecord (hold : ∀ t, registry.tokenFor coinType = some t → t = token) :
      Paired (registry.record coinType token) := by
    intro c t
    rw [tokenFor_record, coinFor_record]
    by_cases ht : t = token <;> by_cases hc : c = coinType
    · simp [ht, hc]
    · rw [if_pos ht, if_neg hc, ht]
      exact ⟨fun h => absurd (Option.some.inj h).symm hc, fun h => absurd (hfree c h) hc⟩
    · rw [if_neg ht, if_pos hc, hp, hc]
      exact ⟨fun h => absurd (hold t h) ht, fun h => absurd (Option.some.inj h).symm ht⟩
    · rw [if_neg ht, if_neg hc, hp]
  unfold TokenRegistry.insert
  split
  · rename_i existing hex
    split
    · exact hp
    · rename_i he
      refine hrecord fun t ht => ?_
      have hold : registry.tokenFor coinType = some existing := hex
      rw [hold, not_not.1 he] at ht
      exact (Option.some.inj ht).symm
  · rename_i hnone
    refine hrecord fun t ht => ?_
    have hold : registry.tokenFor coinType = none := hnone
    simp [hold] at ht

theorem Paired.insertAll (hp : registry.Paired)
    (hfree : ∀ c t, (c, t) ∈ entries → ∀ c',
      registry.tokenFor c' = some t ∨ (c', t) ∈ entries → c' = c) :
    Paired (registry.insertAll entries) := by
  induction entries generalizing registry with
  | nil => exact hp
  | cons e entries ih =>
    have hhead := hfree e.1 e.2 (List.mem_cons_self ..)
    refine ih (hp.insert fun c hc => hhead c (.inl hc)) fun c t hmem c' hc' => ?_
    rcases hc' with hc' | hc'
    · rw [tokenFor_insert, Option.or_eq_some_iff] at hc'
      rcases hc' with hc' | ⟨-, hc'⟩
      · exact hfree c t (List.mem_cons_of_mem _ hmem) c' (.inl hc')
      · rw [Option.ite_none_right_eq_some, Option.some.injEq] at hc'
        obtain ⟨rfl, rfl⟩ := hc'
        exact hfree c _ (List.mem_cons_of_mem _ hmem) _ (.inr (List.mem_cons_self ..))
    · exact hfree c t (List.mem_cons_of_mem _ hmem) c' (.inr (List.mem_cons_of_mem _ hc'))

/-! ## The persisted form -/

theorem decodeEntry_encodeEntry (e : Bytes × EvmAddress) :
    decodeEntry (encodeEntry e) = .ok e := by
  simp only [decodeEntry, encodeEntry, Hex.decodeBare_encode,
    Hex.decodePrefixed_encodePrefixed, Option.bind_some, FixedBytes.ofBytes?_val]

theorem encodeEntry_fst_inj {e e' : Bytes × EvmAddress}
    (h : (encodeEntry e).1 = (encodeEntry e').1) : e.1 = e'.1 := by
  have hd := congrArg Hex.decodeBare h
  simpa only [encodeEntry, Hex.decodeBare_encode, Option.some.injEq] using hd

theorem mem_toList_byCoinType {e : Bytes × EvmAddress} :
    e ∈ registry.byCoinType.toList ↔ registry.tokenFor e.1 = some e.2 :=
  Std.TreeMap.mem_toList_iff_getElem?_eq_some

/-- The persisted entries are the encodings of the registry's. -/
theorem mem_toList_snapshot {e : String × String} :
    e ∈ registry.snapshot.toList ↔
      ∃ c t, registry.tokenFor c = some t ∧ e = encodeEntry (c, t) := by
  have hdistinct : (registry.byCoinType.toList.map encodeEntry).Pairwise
      fun a b => ¬ compare a.1 b.1 = .eq := by
    refine (List.pairwise_map.2 <| Std.TreeMap.distinct_keys_toList.imp ?_)
    intro a b hne he
    exact hne (Std.compare_eq_iff_eq.2 (encodeEntry_fst_inj (Std.compare_eq_iff_eq.1 he)))
  obtain ⟨k, v⟩ := e
  rw [Std.TreeMap.mem_toList_iff_getElem?_eq_some, snapshot]
  constructor
  · intro h
    by_cases hk : k ∈ (registry.byCoinType.toList.map encodeEntry).map Prod.fst
    · obtain ⟨⟨k', v'⟩, hmem, rfl⟩ := List.mem_map.1 hk
      rw [Std.TreeMap.getElem?_ofList_of_mem Std.compare_self hdistinct hmem] at h
      obtain ⟨⟨c, t⟩, ht, he⟩ := List.mem_map.1 hmem
      cases h
      exact ⟨c, t, mem_toList_byCoinType.1 ht, he.symm⟩
    · rw [Std.TreeMap.getElem?_ofList_of_contains_eq_false] at h
      · cases h
      · simpa using hk
  · rintro ⟨c, t, ht, he⟩
    refine Std.TreeMap.getElem?_ofList_of_mem Std.compare_self hdistinct ?_
    exact List.mem_map.2 ⟨(c, t), mem_toList_byCoinType.2 ht, he.symm⟩

/-- Entries that all encode pairs are read back as those pairs. -/
theorem mapM_decodeEntry (entries : List (Bytes × EvmAddress)) :
    (entries.map encodeEntry).mapM decodeEntry = .ok entries := by
  induction entries with
  | nil => rfl
  | cons e entries ih =>
    rw [List.map_cons, List.mapM_cons, decodeEntry_encodeEntry, ih]
    rfl

theorem lookup_eq_some_of_functional (hf : ∀ t t', (c, t) ∈ entries → (c, t') ∈ entries → t = t') :
    entries.lookup c = some t ↔ (c, t) ∈ entries := by
  induction entries with
  | nil => simp
  | cons e entries ih =>
    obtain ⟨k, v⟩ := e
    rw [List.lookup_cons]
    by_cases hk : c = k
    · subst hk
      have hv := hf t v
      simp only [BEq.rfl, List.mem_cons, Prod.mk.injEq, true_and, Option.some.injEq]
      exact ⟨fun h => .inl h.symm, fun h => (hv (by simpa using h) (by simp)).symm⟩
    · rw [beq_false_of_ne hk]
      simp only [List.mem_cons, Prod.mk.injEq, hk, false_and, false_or]
      exact ih fun t t' ht ht' => hf t t' (List.mem_cons_of_mem _ ht) (List.mem_cons_of_mem _ ht')

/-- A registry is restored from its snapshot. -/
theorem fromSnapshot_snapshot (hp : registry.Paired) : ∃ restored,
    fromSnapshot registry.snapshot = .ok restored ∧
    (∀ c, restored.tokenFor c = registry.tokenFor c) ∧ restored.Paired := by
  have hrange : registry.snapshot.toList ∈ Set.range (List.map encodeEntry) := by
    rw [Set.range_list_map]
    intro e he
    obtain ⟨c, t, -, rfl⟩ := mem_toList_snapshot.1 he
    exact ⟨(c, t), rfl⟩
  obtain ⟨entries, hentries⟩ := hrange
  have hmem : ∀ c t, (c, t) ∈ entries ↔ registry.tokenFor c = some t := by
    intro c t
    constructor
    · intro h
      have he := List.mem_map_of_mem (f := encodeEntry) h
      rw [hentries] at he
      obtain ⟨c', t', ht, heq⟩ := mem_toList_snapshot.1 he
      have hd := congrArg decodeEntry heq
      rw [decodeEntry_encodeEntry, decodeEntry_encodeEntry] at hd
      cases hd
      exact ht
    · intro h
      have he := mem_toList_snapshot.2 ⟨c, t, h, rfl⟩
      rw [← hentries] at he
      obtain ⟨e, hmem, heq⟩ := List.mem_map.1 he
      have hd := congrArg decodeEntry heq
      rw [decodeEntry_encodeEntry, decodeEntry_encodeEntry] at hd
      cases hd
      exact hmem
  have hfunctional : ∀ c t t', (c, t) ∈ entries → (c, t') ∈ entries → t = t' := by
    intro c t t' ht ht'
    exact Option.some.inj (((hmem c t).1 ht).symm.trans ((hmem c t').1 ht'))
  refine ⟨empty.insertAll entries, ?_, fun c => ?_, ?_⟩
  · rw [fromSnapshot, ← hentries, mapM_decodeEntry]
    rfl
  · ext t
    rw [tokenFor_insertAll, tokenFor_empty, Option.none_or,
      lookup_eq_some_of_functional (hfunctional c), hmem]
  · refine empty_paired.insertAll fun c t ht c' hc' => ?_
    rw [tokenFor_empty] at hc'
    have hc'' := (hmem c' t).1 (hc'.resolve_left (by simp))
    exact Option.some.inj (((hp c' t).2 hc'').symm.trans ((hp c t).2 ((hmem c t).1 ht)))

end TokenRegistry

end Podseq.Node
