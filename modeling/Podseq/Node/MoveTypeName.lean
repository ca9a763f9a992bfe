import Podseq.Lib.FixedBytes
import Podseq.Move.Bridge
import Podseq.Node.AbiString

/-! # Move types and their names

`type_name` writes every address of a type bare, the SDK every one after a `0x`. The relayer
bridges the two at the front of the text only: it puts a `0x` before the first address to parse
a name, and takes it off again to print one. The addresses further in stay as they were.
-/
namespace Podseq.Node
open Podseq.Lib Podseq.Move

def identifierChar (c : Char) : Bool := c.isAlphanum || c == '_'

structure Identifier where
  text : List Char
  nonempty : text ≠ []
  valid : text.all identifierChar = true

inductive Primitive
  | bool | u8 | u16 | u32 | u64 | u128 | u256 | address | signer
deriving DecidableEq

def Primitive.name : Primitive → List Char
  | .bool => ['b', 'o', 'o', 'l']
  | .u8 => ['u', '8']
  | .u16 => ['u', '1', '6']
  | .u32 => ['u', '3', '2']
  | .u64 => ['u', '6', '4']
  | .u128 => ['u', '1', '2', '8']
  | .u256 => ['u', '2', '5', '6']
  | .address => ['a', 'd', 'd', 'r', 'e', 's', 's']
  | .signer => ['s', 'i', 'g', 'n', 'e', 'r']

inductive TypeTag
  | primitive (p : Primitive)
  | vector (elem : TypeTag)
  | struct (address : FixedBytes 32) (module name : Identifier) (typeParams : List TypeTag)

structure StructTag where
  address : FixedBytes 32
  module : Identifier
  name : Identifier
  typeParams : List TypeTag

def StructTag.toTypeTag (tag : StructTag) : TypeTag :=
  .struct tag.address tag.module tag.name tag.typeParams

/-- Address, module and name; `lead` stands before the address. -/
def structHead (lead : List Char) (address : FixedBytes 32) (module name : Identifier) :
    List Char :=
  lead ++ Hex.encodeChars address.val ++ ':' :: ':' :: module.text ++ ':' :: ':' :: name.text

mutual

/-- The text of a type: `lead` stands before every address, `gap` after every comma. -/
def TypeTag.spell (lead gap : List Char) : TypeTag → List Char
  | .primitive p => p.name
  | .vector elem => ['v', 'e', 'c', 't', 'o', 'r'] ++ '<' :: (elem.spell lead gap ++ ['>'])
  | .struct address module name typeParams =>
    structHead lead address module name ++ spellParams lead gap typeParams

def spellParams (lead gap : List Char) : List TypeTag → List Char
  | [] => []
  | t :: ts => '<' :: (t.spell lead gap ++ spellMore lead gap ts)

/-- The parameters after the first. -/
def spellMore (lead gap : List Char) : List TypeTag → List Char
  | [] => ['>']
  | t :: ts => ',' :: (gap ++ t.spell lead gap ++ spellMore lead gap ts)

end

/-- `type_name::with_defining_ids<T>().into_string()`. -/
def TypeTag.typeName (T : TypeTag) : String := .ofList (T.spell [] [])

/-- The coin type of the vault's `Coin<T>`. -/
def TypeTag.coinType (T : TypeTag) : CoinType := Bcs.utf8 T.typeName

/-! ## The SDK and the relayer -/

def punctuation (c : Char) : Bool := c == '<' || c == '>' || c == ','

/-- Every word of the text that names a struct starts with `0x`. -/
def AddressesPrefixed (text : List Char) : Prop :=
  ∀ word ∈ text.splitOnP punctuation, ':' ∈ word → ['0', 'x'] <+: word

/-- The parser and the printer of `sui_sdk_types`. -/
structure TypeSdk where
  /-- `StructTag::from_str`. -/
  parse : String → Option StructTag
  /-- The number of blanks the printer puts after a comma. -/
  gap : Nat
  /-- An address is parsed only with a `0x`. -/
  parse_prefixed : ∀ {s tag}, parse s = some tag → ' ' ∉ s.toList → AddressesPrefixed s.toList

/-- `StructTag::to_string`: every address is printed with a `0x`. -/
def TypeSdk.print (sdk : TypeSdk) (tag : StructTag) : String :=
  .ofList (tag.toTypeTag.spell ['0', 'x'] (List.replicate sdk.gap ' '))

def TypeSdk.parseStructTagFlexible (sdk : TypeSdk) (coinType : String) : Except String StructTag :=
  let repaired := if ['0', 'x'] <+: coinType.toList then coinType else "0x" ++ coinType
  match sdk.parse repaired with
  | some tag => .ok tag
  | none => .error ("parsing coin type " ++ coinType ++ " as a Sui StructTag")

def TypeSdk.normalizeCoinType (sdk : TypeSdk) (coinType : String) : Except String Bytes := do
  let tag ← sdk.parseStructTagFlexible coinType
  return Bcs.utf8 (.ofList (Hex.trimPrefix (sdk.print tag).toList))

def TypeSdk.coinTypeTag (sdk : TypeSdk) (coinType : String) : Except String TypeTag := do
  let tag ← sdk.parseStructTagFlexible coinType
  return tag.toTypeTag

/-- The string that `ensure_token` passes to `createBridge` for the coin type of a deposit. -/
def createdCoinType (coinType : Bytes) : Except String String :=
  withContext "deposit coin_type bytes are not utf-8" (fromUtf8 coinType)

/-- The type that `process_withdrawal_log` releases for the coin type of a token. -/
def TypeSdk.releasedTag (sdk : TypeSdk) (coinBytes : Bytes) : Except String TypeTag := do
  let coinStr ← withContext "token coin_type not utf-8" (fromUtf8 coinBytes)
  sdk.coinTypeTag coinStr

/-- The two paths of a coin agree: the key of its token is the coin type of its deposits, and a
burn of the token is released as that coin. -/
structure TypeSdk.Agrees (sdk : TypeSdk) (T : TypeTag) : Prop where
  key : ∃ recorded, createdCoinType (Vault.typeKey T.coinType) = .ok recorded ∧
    sdk.normalizeCoinType recorded = .ok (Vault.typeKey T.coinType)
  released : sdk.releasedTag (Vault.typeKey T.coinType) = .ok T

/-- No struct occurs in the type. -/
def TypeTag.structFree : TypeTag → Bool
  | .primitive _ => true
  | .vector elem => elem.structFree
  | .struct .. => false

/-- A struct with no struct in its parameters, nor, if the printer separates them by blanks,
more than one parameter. -/
def TypeTag.Plain (gap : Nat) : TypeTag → Prop
  | .struct _ _ _ typeParams =>
    (∀ t ∈ typeParams, t.structFree = true) ∧ (gap = 0 ∨ typeParams.length ≤ 1)
  | _ => False

/-! ## Characters and words -/

variable {lead gap text text' : List Char} {address : FixedBytes 32} {module name : Identifier}
  {t T : TypeTag} {ts : List TypeTag} {c : Char}

theorem not_punctuation_of_identifierChar (h : identifierChar c = true) :
    punctuation c = false := by
  by_contra hp
  simp only [punctuation, Bool.not_eq_false, Bool.or_eq_true, beq_iff_eq] at hp
  rcases hp with (rfl | rfl) | rfl <;> exact absurd h (by decide)

theorem identifierChar_of_mem_encodeChars {bytes : Bytes} (h : c ∈ Hex.encodeChars bytes) :
    identifierChar c = true := by
  have hdigit : ∀ n : Fin 16, identifierChar (Hex.digit n) = true := by decide
  obtain ⟨b, -, hc⟩ := List.mem_flatMap.1 h
  have hb : b.toNat < 256 := b.toNat_lt
  simp only [Hex.encodeByte, List.mem_cons, List.not_mem_nil, or_false] at hc
  rcases hc with rfl | rfl
  · exact hdigit ⟨b.toNat / 16, by omega⟩
  · exact hdigit ⟨b.toNat % 16, by omega⟩

/-- What stands before an address: nothing, or `0x`. -/
def IsLead (lead : List Char) : Prop := ∀ c ∈ lead, identifierChar c = true

theorem isLead_nil : IsLead [] := List.forall_mem_nil _

theorem isLead_hex : IsLead ['0', 'x'] := by
  intro c hc
  simp only [List.mem_cons, List.not_mem_nil, or_false] at hc
  rcases hc with rfl | rfl <;> rfl

theorem char_of_mem_structHead (hl : IsLead lead) (h : c ∈ structHead lead address module name) :
    identifierChar c = true ∨ c = ':' := by
  have hid : ∀ {i : Identifier}, c ∈ i.text → identifierChar c = true := fun {i} hc =>
    List.all_eq_true.1 i.valid c hc
  simp only [structHead, List.mem_append, List.mem_cons] at h
  rcases h with ((h | h) | h | h | h) | h | h | h
  · exact .inl (hl c h)
  · exact .inl (identifierChar_of_mem_encodeChars h)
  · exact .inr h
  · exact .inr h
  · exact .inl (hid h)
  · exact .inr h
  · exact .inr h
  · exact .inl (hid h)

theorem words_structHead (hl : IsLead lead) :
    (structHead lead address module name).splitOnP punctuation =
      [structHead lead address module name] := by
  refine List.splitOnP_eq_singleton fun c hc => ?_
  rcases char_of_mem_structHead hl hc with hc | rfl
  · exact not_punctuation_of_identifierChar hc
  · rfl

theorem addressesPrefixed_append_cons (hc : punctuation c = true) :
    AddressesPrefixed (text ++ c :: text') ↔
      AddressesPrefixed text ∧ AddressesPrefixed text' := by
  simp only [AddressesPrefixed, List.splitOnP_append_cons _ _ hc, List.mem_append, or_imp,
    forall_and]

/-- A text of a single identifier, or of none, has no addresses. -/
theorem addressesPrefixed_of_identifier (h : text.all identifierChar = true) :
    AddressesPrefixed text := by
  have hchars : ∀ c ∈ text, identifierChar c = true := List.all_eq_true.1 h
  intro word hword hcolon
  rw [List.splitOnP_eq_singleton fun c hc => not_punctuation_of_identifierChar (hchars c hc),
    List.mem_singleton] at hword
  exact absurd (hchars _ (hword ▸ hcolon)) (by decide)

theorem addressesPrefixed_primitive (p : Primitive) : AddressesPrefixed p.name :=
  addressesPrefixed_of_identifier (by cases p <;> rfl)

theorem addressesPrefixed_vector :
    AddressesPrefixed (['v', 'e', 'c', 't', 'o', 'r'] ++ '<' :: (text ++ ['>'])) ↔
      AddressesPrefixed text := by
  have hvector : AddressesPrefixed ['v', 'e', 'c', 't', 'o', 'r'] :=
    addressesPrefixed_of_identifier rfl
  have hnil : AddressesPrefixed [] := addressesPrefixed_of_identifier rfl
  rw [addressesPrefixed_append_cons rfl, addressesPrefixed_append_cons rfl]
  simp only [hvector, hnil, true_and, and_true]

/-- The addresses of a text that goes on with the further parameters of a type. -/
theorem addressesPrefixed_spellMore : AddressesPrefixed (text ++ spellMore lead [] ts) ↔
    AddressesPrefixed text ∧ ∀ t ∈ ts, AddressesPrefixed (t.spell lead []) := by
  induction ts generalizing text with
  | nil =>
    rw [spellMore, addressesPrefixed_append_cons rfl]
    have hnil : AddressesPrefixed [] := addressesPrefixed_of_identifier rfl
    simp [hnil]
  | cons t ts ih =>
    rw [spellMore, addressesPrefixed_append_cons rfl, List.nil_append, ih, List.forall_mem_cons]

theorem addressesPrefixed_spellParams : AddressesPrefixed (text ++ spellParams lead [] ts) ↔
    AddressesPrefixed text ∧ ∀ t ∈ ts, AddressesPrefixed (t.spell lead []) := by
  cases ts with
  | nil =>
    rw [spellParams, List.append_nil]
    simp
  | cons t ts =>
    rw [spellParams, addressesPrefixed_append_cons rfl, addressesPrefixed_spellMore,
      List.forall_mem_cons]

theorem addressesPrefixed_structHead (hl : IsLead lead) :
    AddressesPrefixed (structHead lead address module name) ↔
      ['0', 'x'] <+: structHead lead address module name := by
  have hcolon : ':' ∈ structHead lead address module name := by simp [structHead]
  simp only [AddressesPrefixed, words_structHead hl, List.mem_singleton, forall_eq, hcolon,
    forall_const]

/-! ## Addresses of a type -/

/-- Induction over a type and the types of its parameters. -/
@[elab_as_elim]
theorem TypeTag.nested {P : TypeTag → Prop} (T : TypeTag)
    (primitive : ∀ p, P (.primitive p)) (vector : ∀ elem, P elem → P (.vector elem))
    (struct : ∀ address module name typeParams, (∀ t ∈ typeParams, P t) →
      P (.struct address module name typeParams)) : P T := by
  match T with
  | .primitive p => exact primitive p
  | .vector elem => exact vector elem (TypeTag.nested elem primitive vector struct)
  | .struct address module name typeParams =>
    exact struct address module name typeParams fun t _ =>
      TypeTag.nested t primitive vector struct

/-- The text of an address starts with two digits. -/
theorem encodeChars_address (address : FixedBytes 32) :
    ∃ d e rest, Hex.encodeChars address.val = d :: e :: rest ∧ e ≠ 'x' := by
  obtain ⟨bytes, hlength⟩ := address
  cases bytes with
  | nil => cases hlength
  | cons b bytes =>
    have hb : b.toNat < 256 := b.toNat_lt
    exact ⟨_, _, _, rfl, Hex.digit_ne_x (by omega)⟩

theorem not_hex_prefix_structHead {rest : List Char} :
    ¬['0', 'x'] <+: structHead [] address module name ++ rest := by
  obtain ⟨d, e, digits, heq, he⟩ := encodeChars_address address
  rw [structHead, heq]
  intro h
  rcases h with ⟨after, h⟩
  simp only [List.cons_append, List.nil_append, List.cons.injEq] at h
  exact he h.2.1.symm

theorem structHead_hex : structHead ['0', 'x'] address module name =
    '0' :: 'x' :: structHead [] address module name := rfl

/-- The printer prefixes every address. -/
theorem addressesPrefixed_spell_hex (T : TypeTag) : AddressesPrefixed (T.spell ['0', 'x'] []) := by
  induction T using TypeTag.nested with
  | primitive p =>
    rw [TypeTag.spell]
    exact addressesPrefixed_primitive p
  | vector elem ih =>
    rw [TypeTag.spell, addressesPrefixed_vector]
    exact ih
  | struct address module name typeParams ih =>
    rw [TypeTag.spell, addressesPrefixed_spellParams, addressesPrefixed_structHead isLead_hex]
    exact ⟨⟨structHead [] address module name, rfl⟩, ih⟩

/-- A type name has every address prefixed exactly when it has none. -/
theorem addressesPrefixed_typeName (T : TypeTag) :
    AddressesPrefixed (T.spell [] []) ↔ T.structFree = true := by
  induction T using TypeTag.nested with
  | primitive p =>
    rw [TypeTag.spell]
    exact iff_of_true (addressesPrefixed_primitive p) rfl
  | vector elem ih => rw [TypeTag.spell, addressesPrefixed_vector, ih, TypeTag.structFree]
  | struct address module name typeParams ih =>
    rw [TypeTag.spell, addressesPrefixed_spellParams, addressesPrefixed_structHead isLead_nil]
    refine iff_of_false (fun h => ?_) (by simp [TypeTag.structFree])
    have hbare : ¬['0', 'x'] <+: structHead [] address module name ++ [] :=
      not_hex_prefix_structHead
    rw [List.append_nil] at hbare
    exact hbare h.1

/-! ## Types without structs -/

/-- Where no struct occurs, the spelling does not depend on the addresses or the commas. -/
theorem spell_of_structFree (T : TypeTag) (h : T.structFree = true) :
    T.spell lead gap = T.spell [] [] := by
  induction T using TypeTag.nested with
  | primitive p => rw [TypeTag.spell, TypeTag.spell]
  | vector elem ih => rw [TypeTag.spell, TypeTag.spell, ih h]
  | struct address module name typeParams ih => cases h

theorem length_spellMore (h : ∀ t ∈ ts, t.structFree = true) :
    (spellMore lead gap ts).length = (spellMore [] [] ts).length + ts.length * gap.length := by
  induction ts with
  | nil => simp [spellMore]
  | cons t ts ih =>
    obtain ⟨ht, hts⟩ := List.forall_mem_cons.1 h
    simp only [spellMore, spell_of_structFree t ht, List.length_cons,
      List.length_append, ih hts, List.length_nil]
    ring

theorem spellMore_no_gap (h : ∀ t ∈ ts, t.structFree = true) :
    spellMore lead [] ts = spellMore [] [] ts := by
  induction ts with
  | nil => rw [spellMore, spellMore]
  | cons t ts ih =>
    obtain ⟨ht, hts⟩ := List.forall_mem_cons.1 h
    rw [spellMore, spellMore, spell_of_structFree t ht, ih hts]

/-- The parameters are printed as their type names are exactly when there is no comma, or no
blank after a comma. -/
theorem spellParams_eq_iff (h : ∀ t ∈ ts, t.structFree = true) :
    spellParams lead gap ts = spellParams [] [] ts ↔ gap = [] ∨ ts.length ≤ 1 := by
  cases ts with
  | nil => simp [spellParams]
  | cons t ts =>
    obtain ⟨ht, hts⟩ := List.forall_mem_cons.1 h
    rw [spellParams, spellParams, spell_of_structFree t ht, List.cons_inj_right,
      List.append_cancel_left_eq, List.length_cons]
    constructor
    · intro heq
      have hlength := congrArg List.length heq
      rw [length_spellMore hts, Nat.add_eq_left, Nat.mul_eq_zero] at hlength
      rcases hlength with hlength | hlength
      · exact .inr (by omega)
      · exact .inl (List.eq_nil_of_length_eq_zero hlength)
    · intro hor
      rcases hor with rfl | hshort
      · exact spellMore_no_gap hts
      · obtain rfl : ts = [] := List.eq_nil_of_length_eq_zero (by omega)
        rw [spellMore, spellMore]

/-! ## Blanks -/

theorem blank_not_mem_spellMore (h : ∀ t ∈ ts, ' ' ∉ t.spell [] []) :
    ' ' ∉ spellMore [] [] ts := by
  induction ts with
  | nil =>
    rw [spellMore]
    decide
  | cons t ts ih =>
    obtain ⟨ht, hts⟩ := List.forall_mem_cons.1 h
    simp [spellMore, ht, ih hts]

theorem blank_not_mem_spellParams (h : ∀ t ∈ ts, ' ' ∉ t.spell [] []) :
    ' ' ∉ spellParams [] [] ts := by
  cases ts with
  | nil => simp [spellParams]
  | cons t ts =>
    obtain ⟨ht, hts⟩ := List.forall_mem_cons.1 h
    simp [spellParams, ht, blank_not_mem_spellMore hts]

theorem blank_not_mem_structHead (hl : IsLead lead) :
    ' ' ∉ structHead lead address module name := by
  intro h
  rcases char_of_mem_structHead hl h with h | h <;> exact absurd h (by decide)

/-- A type name has no blanks. -/
theorem blank_not_mem_typeName (T : TypeTag) : ' ' ∉ T.spell [] [] := by
  induction T using TypeTag.nested with
  | primitive p =>
    rw [TypeTag.spell]
    cases p <;> decide
  | vector elem ih => simp [TypeTag.spell, ih]
  | struct address module name typeParams ih =>
    rw [TypeTag.spell, List.mem_append, not_or]
    exact ⟨blank_not_mem_structHead isLead_nil, blank_not_mem_spellParams ih⟩

/-! ## The paths of a coin -/

variable {sdk : TypeSdk} {tag : StructTag}

theorem fromUtf8_utf8 (s : String) : fromUtf8 (Bcs.utf8 s) = .ok s :=
  fromUtf8_eq_ok.2 (Bcs.fromUTF8?_utf8 s)

theorem utf8_injective {s s' : String} (h : Bcs.utf8 s = Bcs.utf8 s') : s = s' := by
  have hs := Bcs.fromUTF8?_utf8 s
  rw [h, Bcs.fromUTF8?_utf8] at hs
  exact (Option.some.inj hs).symm

theorem structTag_toList : tag.toTypeTag.typeName.toList =
    structHead [] tag.address tag.module tag.name ++ spellParams [] [] tag.typeParams := by
  rw [TypeTag.typeName, String.toList_ofList, StructTag.toTypeTag, TypeTag.spell]

/-- The text that is parsed for the name of a struct: one `0x` before its first address. -/
def StructTag.repaired (tag : StructTag) : String := "0x" ++ tag.toTypeTag.typeName

theorem toList_repaired : tag.repaired.toList =
    structHead ['0', 'x'] tag.address tag.module tag.name ++ spellParams [] [] tag.typeParams := by
  rw [StructTag.repaired, String.toList_append, structTag_toList, structHead_hex]
  rfl

/-- A type name starts with a bare address. -/
theorem typeName_bare : ¬['0', 'x'] <+: tag.toTypeTag.typeName.toList := by
  rw [structTag_toList]
  exact not_hex_prefix_structHead

theorem parseStructTagFlexible_eq_ok {tag' : StructTag} :
    sdk.parseStructTagFlexible tag.toTypeTag.typeName = .ok tag' ↔
      sdk.parse tag.repaired = some tag' := by
  simp only [TypeSdk.parseStructTagFlexible, if_neg typeName_bare, StructTag.repaired]
  cases sdk.parse ("0x" ++ tag.toTypeTag.typeName) <;> simp

/-- What is parsed has no struct in its parameters. -/
theorem structFree_of_parse {tag' : StructTag} (h : sdk.parse tag.repaired = some tag') :
    ∀ t ∈ tag.typeParams, t.structFree = true := by
  have hblank : ' ' ∉ tag.repaired.toList := by
    rw [toList_repaired, List.mem_append, not_or]
    exact ⟨blank_not_mem_structHead isLead_hex,
      blank_not_mem_spellParams fun t _ => blank_not_mem_typeName t⟩
  have hprefixed := sdk.parse_prefixed h hblank
  rw [toList_repaired, addressesPrefixed_spellParams] at hprefixed
  intro t ht
  exact (addressesPrefixed_typeName t).1 (hprefixed.2 t ht)

/-- A struct inside the parameters makes the name unreadable. -/
theorem parseStructTagFlexible_of_nested (ht : t ∈ tag.typeParams) (hs : t.structFree = false) :
    sdk.parseStructTagFlexible tag.toTypeTag.typeName =
      .error ("parsing coin type " ++ tag.toTypeTag.typeName ++ " as a Sui StructTag") := by
  have hnone : sdk.parse ("0x" ++ tag.toTypeTag.typeName) = none := by
    refine Option.eq_none_iff_forall_ne_some.2 fun tag' h => ?_
    rw [structFree_of_parse h t ht] at hs
    cases hs
  simp only [TypeSdk.parseStructTagFlexible, if_neg typeName_bare, hnone]

/-- The text that the SDK reads and prints, with no blanks. -/
def StructTag.spelled (tag : StructTag) : String := .ofList (tag.toTypeTag.spell ['0', 'x'] [])

theorem spellParams_no_gap (h : ∀ t ∈ ts, t.structFree = true) :
    spellParams lead [] ts = spellParams [] [] ts :=
  (spellParams_eq_iff h).2 (.inl rfl)

theorem repaired_of_structFree (h : ∀ t ∈ tag.typeParams, t.structFree = true) :
    tag.repaired = tag.spelled := by
  rw [← String.toList_inj, toList_repaired, StructTag.spelled, String.toList_ofList,
    StructTag.toTypeTag, TypeTag.spell, ← spellParams_no_gap h]

/-- The printed text without its first `0x`. -/
theorem trimPrefix_print : Hex.trimPrefix (sdk.print tag).toList =
    structHead [] tag.address tag.module tag.name ++
      spellParams ['0', 'x'] (List.replicate sdk.gap ' ') tag.typeParams := by
  obtain ⟨d, e, digits, heq, he⟩ := encodeChars_address tag.address
  rw [TypeSdk.print, String.toList_ofList, StructTag.toTypeTag, TypeTag.spell, structHead_hex,
    structHead, heq]
  simp only [List.cons_append, List.nil_append, Hex.trimPrefix]
  rw [Hex.trimPrefix]
  intro rest h
  simp only [List.cons.injEq] at h
  exact absurd h.2.1 he

theorem toTypeTag_inj {tag' : StructTag} (h : tag.toTypeTag = tag'.toTypeTag) : tag = tag' := by
  cases tag
  cases tag'
  cases h
  rfl

/-- Only a struct is ever released. -/
theorem struct_of_released {bytes : Bytes} (h : sdk.releasedTag bytes = .ok T) :
    ∃ tag : StructTag, T = tag.toTypeTag := by
  simp only [TypeSdk.releasedTag, TypeSdk.coinTypeTag, bind_eq_ok, pure_eq_ok] at h
  obtain ⟨-, -, tag, -, htag⟩ := h
  exact ⟨tag, htag.symm⟩

/-- The string that `createBridge` records is the type name. -/
theorem createdCoinType_typeKey (T : TypeTag) :
    createdCoinType (Vault.typeKey T.coinType) = .ok T.typeName :=
  withContext_eq_ok.2 (fromUtf8_utf8 _)

theorem releasedTag_typeKey (sdk : TypeSdk) (T : TypeTag) :
    sdk.releasedTag (Vault.typeKey T.coinType) = sdk.coinTypeTag T.typeName := by
  have hname : withContext "token coin_type not utf-8" (fromUtf8 (Vault.typeKey T.coinType)) =
      .ok T.typeName := withContext_eq_ok.2 (fromUtf8_utf8 _)
  rw [TypeSdk.releasedTag, hname, ok_bind]

/-- The paths of a struct agree when its name is parsed to it and printed back. -/
theorem agrees_struct_iff : sdk.Agrees tag.toTypeTag ↔ sdk.parse tag.repaired = some tag ∧
    Hex.trimPrefix (sdk.print tag).toList = tag.toTypeTag.typeName.toList := by
  constructor
  · intro h
    obtain ⟨recorded, hrecorded, hkey⟩ := h.key
    obtain rfl := Except.ok.inj ((createdCoinType_typeKey _).symm.trans hrecorded)
    have htag := h.released
    simp only [releasedTag_typeKey, TypeSdk.coinTypeTag, bind_eq_ok, pure_eq_ok,
      parseStructTagFlexible_eq_ok] at htag
    obtain ⟨tag', hparse, htag⟩ := htag
    obtain rfl := toTypeTag_inj htag
    simp only [TypeSdk.normalizeCoinType, bind_eq_ok, pure_eq_ok,
      parseStructTagFlexible_eq_ok] at hkey
    obtain ⟨tag'', hparse', hkey⟩ := hkey
    obtain rfl := Option.some.inj (hparse.symm.trans hparse')
    refine ⟨hparse, ?_⟩
    rw [← String.toList_ofList (l := Hex.trimPrefix _), utf8_injective hkey]
  · intro h
    obtain ⟨hparse, hprint⟩ := h
    have hok := parseStructTagFlexible_eq_ok.2 hparse
    refine ⟨⟨_, createdCoinType_typeKey _, ?_⟩, ?_⟩
    · rw [TypeSdk.normalizeCoinType, hok, ok_bind, hprint, String.ofList_toList]
      rfl
    · rw [releasedTag_typeKey, TypeSdk.coinTypeTag, hok, ok_bind]
      rfl

/-- **The two paths of a coin agree exactly for plain structs.** Where the SDK reads the
spelling with a `0x` at every address, the key of a coin type is the coin type and a burn is
released as that coin exactly if the type is a struct without a struct in its parameters, and
without a comma that the SDK would print a blank after. -/
theorem coin_types_agree_iff (sdk : TypeSdk) (T : TypeTag)
    (hreads : ∀ tag : StructTag, T = tag.toTypeTag → sdk.parse tag.spelled = some tag) :
    sdk.Agrees T ↔ T.Plain sdk.gap := by
  cases T with
  | primitive p =>
    refine iff_of_false (fun h => ?_) id
    obtain ⟨tag, htag⟩ := struct_of_released h.released
    cases htag
  | vector elem =>
    refine iff_of_false (fun h => ?_) id
    obtain ⟨tag, htag⟩ := struct_of_released h.released
    cases htag
  | struct address module name typeParams =>
    let tag : StructTag := ⟨address, module, name, typeParams⟩
    have hparams : ∀ hfree : ∀ t ∈ typeParams, t.structFree = true,
        (Hex.trimPrefix (sdk.print tag).toList = tag.toTypeTag.typeName.toList ↔
          sdk.gap = 0 ∨ typeParams.length ≤ 1) := by
      intro hfree
      rw [trimPrefix_print, structTag_toList, List.append_cancel_left_eq, spellParams_eq_iff hfree,
        List.replicate_eq_nil_iff]
    change sdk.Agrees tag.toTypeTag ↔ _
    rw [agrees_struct_iff]
    constructor
    · intro h
      have hfree := structFree_of_parse h.1
      exact ⟨hfree, (hparams hfree).1 h.2⟩
    · intro h
      obtain ⟨hfree, hcommas⟩ := h
      refine ⟨?_, (hparams hfree).2 hcommas⟩
      rw [repaired_of_structFree hfree]
      exact hreads tag rfl

/-! ## A coin with a parameter -/

/-- An SDK asked for one type only: it reads the spelling of that type. -/
def TypeSdk.single (tag : StructTag) (gap : Nat) : TypeSdk where
  parse s := if s = tag.spelled then some tag else none
  gap := gap
  parse_prefixed := by
    intro s tag' h _
    rw [Option.ite_none_right_eq_some] at h
    rw [h.1, StructTag.spelled, String.toList_ofList]
    exact addressesPrefixed_spell_hex _

theorem single_reads (gap : Nat) (tag' : StructTag) (h : tag.toTypeTag = tag'.toTypeTag) :
    (TypeSdk.single tag gap).parse tag'.spelled = some tag' := by
  obtain rfl := toTypeTag_inj h
  exact if_pos rfl

def suiTag : StructTag where
  address := ⟨List.replicate 31 0 ++ [2], rfl⟩
  module := ⟨['s', 'u', 'i'], by decide, rfl⟩
  name := ⟨['S', 'U', 'I'], by decide, rfl⟩
  typeParams := []

def complexTag (T : TypeTag) : StructTag where
  address := ⟨List.replicate 31 0 ++ [5], rfl⟩
  module := ⟨['c', 'o', 'm', 'p', 'l', 'e', 'x'], by decide, rfl⟩
  name := ⟨['C', 'o', 'i', 'n'], by decide, rfl⟩
  typeParams := [T]

theorem coin_types_agree_iff_complex :
    (TypeSdk.single (complexTag (.vector (.primitive .u8))) 1).Agrees
      (complexTag (.vector (.primitive .u8))).toTypeTag :=
  (coin_types_agree_iff _ _ (single_reads 1)).2
    ⟨fun _ ht => by rw [List.mem_singleton.1 ht]; rfl, .inr le_rfl⟩

/-- The name of `0x5::complex::Coin<0x2::sui::SUI>` has a bare address inside, so it is not
parsed: a `BridgeCreated` of the coin has no key, and no burn of its token is released. -/
theorem nested_address_not_parsed :
    let coin := complexTag suiTag.toTypeTag
    let sdk := TypeSdk.single coin 1
    let failure := "parsing coin type " ++ coin.toTypeTag.typeName ++ " as a Sui StructTag"
    sdk.normalizeCoinType coin.toTypeTag.typeName = .error failure ∧
      sdk.releasedTag (Vault.typeKey coin.toTypeTag.coinType) = .error failure ∧
      ¬sdk.Agrees coin.toTypeTag := by
  intro coin sdk failure
  have herror : sdk.parseStructTagFlexible coin.toTypeTag.typeName = .error failure :=
    parseStructTagFlexible_of_nested List.mem_cons_self rfl
  refine ⟨?_, ?_, ?_⟩
  · rw [TypeSdk.normalizeCoinType, herror]
    rfl
  · rw [releasedTag_typeKey, TypeSdk.coinTypeTag, herror]
    rfl
  · intro h
    have hfree := structFree_of_parse (agrees_struct_iff.1 h).1
    exact Bool.noConfusion (hfree suiTag.toTypeTag List.mem_cons_self)

end Podseq.Node
