import Podseq.Node.CanonicalToken

/-! # The tokens of a coin type

A coin type may have a token under each of its spellings. Whatever twins there are, a registry
maps a coin type to one of its own tokens, and a token is one of a single coin type.
-/
namespace Podseq.Node
open Podseq.Lib Podseq.Move Podseq.Solidity

variable {types : CoinTypeSyntax} {R : EvmAddress} {chain chain' : Chain}
  {tokens tokens' : TokenRegistry} {T T' : CoinType} {c c' : Bytes} {t : EvmAddress}
  {logs : List (Nat × Log)}

/-! ## Tokens and registry keys -/

/-- The factory lists `t` under a spelling of `T`. -/
def Spelled (types : CoinTypeSyntax) (chain : Chain) (T : CoinType) (t : EvmAddress) : Prop :=
  t ≠ .zero ∧ ∃ s, chain.contracts.factory.tokenFor s = t ∧ (s = T ∨ types.parse s = some T)

/-- The factory lists `t` under a spelling that gives the registry key `c`. -/
def Known (types : CoinTypeSyntax) (chain : Chain) (c : Bytes) (t : EvmAddress) : Prop :=
  t ≠ .zero ∧ ∃ s, chain.contracts.factory.tokenFor s = t ∧
    (types.normalize s = some c ∨ s = c ∧ types.isName c)

/-- The tokens of `T`. -/
def tokensOf (types : CoinTypeSyntax) (chain : Chain) (T : CoinType) : Finset EvmAddress :=
  ((Chain.creationsIn chain.logs).filterMap fun creation =>
    if creation.2 = T ∨ types.parse creation.2 = some T then some creation.1 else none).toFinset

theorem mem_tokensOf (hs : chain.Sound R) : t ∈ tokensOf types chain T ↔
    Spelled types chain T t := by
  simp only [tokensOf, List.mem_toFinset, List.mem_filterMap, Option.ite_none_right_eq_some,
    Option.some.injEq, Prod.exists, Spelled]
  constructor
  · rintro ⟨a, s, hmem, hspell, rfl⟩
    obtain ⟨hfor, hne⟩ := hs.created.1 hmem
    exact ⟨hne, s, hfor, hspell⟩
  · rintro ⟨hne, s, hfor, hspell⟩
    exact ⟨t, s, hs.created.2 ⟨hfor, hne⟩, hspell, rfl⟩

theorem Spelled.listed (h : Spelled types chain T t) : chain.Listed t := by
  obtain ⟨hne, s, hfor, -⟩ := h
  exact ⟨hne, s, hfor⟩

/-- A token is one of a single coin type. -/
theorem Spelled.inj (hs : chain.Sound R) (hT : types.isName T) (hT' : types.isName T')
    (h : Spelled types chain T t) (h' : Spelled types chain T' t) : T = T' := by
  obtain ⟨hne, s, hfor, hspell⟩ := h
  obtain ⟨-, s', hfor', hspell'⟩ := h'
  obtain rfl := hs.wellFormed.inj (hfor.trans_ne hne) (hfor.trans hfor'.symm)
  rcases hspell with rfl | hparse <;> rcases hspell' with rfl | hparse'
  · rfl
  · exact (types.parse_name hT hparse').symm
  · exact types.parse_name hT' hparse
  · exact Option.some.inj (hparse.symm.trans hparse')

/-- A listed token keeps its coin type. -/
theorem spelled_later (hs' : chain'.Sound R) (hl : chain.Later chain') (ht : chain.Listed t) :
    Spelled types chain' T t ↔ Spelled types chain T t := by
  obtain ⟨hne, s, hfor⟩ := ht
  have hfor' := (hl.tokenFor (hfor.trans_ne hne)).trans hfor
  constructor
  · rintro ⟨-, s', hs'for, hspell⟩
    obtain rfl := hs'.wellFormed.inj (hfor'.trans_ne hne) (hfor'.trans hs'for.symm)
    exact ⟨hne, s, hfor, hspell⟩
  · rintro ⟨-, s', hs'for, hspell⟩
    exact ⟨hne, s', (hl.tokenFor (hs'for.trans_ne hne)).trans hs'for, hspell⟩

theorem Known.later (h : Known types chain c t) (hl : chain.Later chain') :
    Known types chain' c t := by
  obtain ⟨hne, s, hfor, hkey⟩ := h
  exact ⟨hne, s, (hl.tokenFor (hfor.trans_ne hne)).trans hfor, hkey⟩

theorem Known.listed (h : Known types chain c t) : chain.Listed t := by
  obtain ⟨hne, s, hfor, -⟩ := h
  exact ⟨hne, s, hfor⟩

theorem Known.inj (hs : chain.Sound R) (h : Known types chain c t)
    (h' : Known types chain c' t) : c = c' := by
  obtain ⟨hne, s, hfor, hkey⟩ := h
  obtain ⟨-, s', hfor', hkey'⟩ := h'
  obtain rfl := hs.wellFormed.inj (hfor.trans_ne hne) (hfor.trans hfor'.symm)
  rcases hkey with hkey | ⟨rfl, hname⟩ <;> rcases hkey' with hkey' | ⟨rfl, hname'⟩
  · exact Option.some.inj (hkey.symm.trans hkey')
  · exact types.normalize_name hname' hkey
  · exact (types.normalize_name hname hkey').symm
  · rfl

/-- What is registered for a deposited coin type is a token of that coin type. -/
theorem Known.spelled (h : Known types chain c t) (hname : types.isName c) :
    Spelled types chain c t := by
  obtain ⟨hne, s, hfor, hkey | ⟨rfl, -⟩⟩ := h
  · simp only [CoinTypeSyntax.normalize, Option.map_eq_some_iff] at hkey
    obtain ⟨T, hparse, rfl⟩ := hkey
    obtain ⟨hprint, -⟩ := types.print_isName (types.isName_of_parse hparse) hname
    exact ⟨hne, s, hfor, .inr (hprint.symm ▸ hparse)⟩
  · exact ⟨hne, s, hfor, .inl rfl⟩

/-! ## Registries of listed tokens -/

structure Registered (types : CoinTypeSyntax) (chain : Chain) (tokens : TokenRegistry) :
    Prop where
  known : ∀ {c t}, tokens.tokenFor c = some t → Known types chain c t
  paired : tokens.Paired

namespace Registered

theorem empty : Registered types chain .empty where
  known h := by simp at h
  paired := TokenRegistry.empty_paired

theorem later (h : Registered types chain tokens) (hl : chain.Later chain') :
    Registered types chain' tokens where
  known ht := (h.known ht).later hl
  paired := h.paired

theorem congr (h : Registered types chain tokens) (hp : tokens'.Paired)
    (hsame : ∀ c, tokens'.tokenFor c = tokens.tokenFor c) : Registered types chain tokens' where
  known ht := h.known (hsame _ ▸ ht)
  paired := hp

theorem insert (hs : chain.Sound R) (h : Registered types chain tokens)
    (hk : Known types chain c t) : Registered types chain (tokens.insert c t).1 where
  known ht := by
    rw [TokenRegistry.tokenFor_insert, Option.or_eq_some_iff] at ht
    rcases ht with ht | ⟨-, ht⟩
    · exact h.known ht
    · rw [Option.ite_none_right_eq_some, Option.some.injEq] at ht
      obtain ⟨rfl, rfl⟩ := ht
      exact hk
  paired := h.paired.insert fun _ hc => (h.known hc).inj hs hk

theorem claimed (hs : chain.Sound R) (h : (c, t) ∈ claims types chain.logs) :
    Known types chain c t := by
  obtain ⟨s, hnorm, hfor, hne⟩ := claim_listed hs h
  exact ⟨hne, s, hfor, .inl hnorm⟩

/-- Reading creations, whichever range they are in. -/
theorem absorb (hs : chain.Sound R) (h : Registered types chain tokens)
    (hlogs : logs ⊆ chain.logs) : Registered types chain (absorb types tokens logs) := by
  have hclaims : ∀ {c t}, (c, t) ∈ claims types logs → Known types chain c t := fun hmem =>
    claimed hs (claims_subset hlogs hmem)
  refine ⟨fun {c t} ht => ?_, h.paired.insertAll fun c t hmem c' hc' => ?_⟩
  · rw [Node.absorb, TokenRegistry.tokenFor_insertAll, Option.or_eq_some_iff] at ht
    rcases ht with ht | ⟨-, ht⟩
    · exact h.known ht
    · obtain ⟨l, l', hl, -⟩ := List.lookup_eq_some_iff.1 ht
      exact hclaims (hl ▸ List.mem_append_right _ List.mem_cons_self)
  · rcases hc' with hc' | hc'
    · exact (h.known hc').inj hs (hclaims hmem)
    · exact (hclaims hc').inj hs (hclaims hmem)

end Registered

end Podseq.Node
