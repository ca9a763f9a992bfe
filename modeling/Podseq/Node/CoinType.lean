import Podseq.Move.Bridge

/-! # Coin type strings

The relayer parses a coin type string into a `StructTag` and prints it back to find the
spelling it keys its registry by. Parser and printer are the SDK's; what the relayer relies on
is that they agree with the spelling `type_name` gives wherever they touch it.
-/
namespace Podseq.Node
open Podseq.Lib Podseq.Move

/-- The `StructTag` parser and printer, with types written as `type_name` spells them. -/
structure CoinTypeSyntax where
  /-- The spellings `type_name` gives. -/
  isName : Bytes → Bool
  /-- `parse_struct_tag_flexible`; a malformed string (not UTF-8, or not a type) is `none`. -/
  parse : Bytes → Option CoinType
  /-- `StructTag::to_string`, less its leading `0x`. -/
  print : CoinType → Bytes
  isName_of_parse : ∀ {s T}, parse s = some T → isName T
  /-- A `type_name` that parses is parsed to its type. -/
  parse_name : ∀ {T T'}, isName T → parse T = some T' → T' = T
  /-- A `type_name` that parses is printed unchanged. -/
  print_name : ∀ {T}, isName T → parse T = some T → print T = T
  /-- A type whose print is a `type_name` is printed, and parsed, as its own. -/
  print_isName : ∀ {T}, isName T → isName (print T) → print T = T ∧ parse T = some T

namespace CoinTypeSyntax

variable (types : CoinTypeSyntax) {s c c' : Bytes}

/-- `normalize_coin_type`: the registry key of a coin type string. -/
def normalize (coinType : Bytes) : Option Bytes := (types.parse coinType).map types.print

variable {types}

/-- A deposited coin type normalizes to itself, if at all. -/
theorem normalize_name (hc : types.isName c) (h : types.normalize c = some c') : c' = c := by
  simp only [normalize, Option.map_eq_some_iff] at h
  obtain ⟨T, hT, rfl⟩ := h
  obtain rfl := types.parse_name hc hT
  exact types.print_name hc hT

/-- When some string normalizes to a deposited coin type, the coin type does too. -/
theorem normalize_self (hc : types.isName c) (h : types.normalize s = some c) :
    types.normalize c = some c := by
  simp only [normalize, Option.map_eq_some_iff] at h
  obtain ⟨T, hT, rfl⟩ := h
  obtain ⟨hprint, hparse⟩ := types.print_isName (types.isName_of_parse hT) hc
  rw [hprint, normalize, hparse, Option.map_some, hprint]

/-- A syntax with one coin type and another spelling of it. -/
def single (name other : Bytes) : CoinTypeSyntax where
  isName s := s = name
  parse s := if s = name ∨ s = other then some name else none
  print T := T
  isName_of_parse h := by simp_all
  parse_name h h' := by simp_all
  print_name _ _ := rfl
  print_isName h _ := by simp_all

end CoinTypeSyntax

def untilColons : Bytes → Bytes
  | 58 :: 58 :: _ => []
  | b :: rest => b :: untilColons rest
  | [] => []

/-- `derive_token_metadata`: name and symbol of a relayer-created token, the whole coin type
and what follows its last `::`. -/
def deriveTokenMetadata (coinType : Bytes) : Bytes × Bytes :=
  (coinType, (untilColons coinType.reverse).reverse)

end Podseq.Node
