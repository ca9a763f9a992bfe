import Podseq.Node.TokenRegistry

/-! # When the two maps of `TokenRegistry` stay inverse

`insert` asks for another token under the coin type, never for another coin type under the
token. The coin-type map is therefore always right, and the address map is its inverse as long
as no token is the first one of two coin types.
-/
namespace Podseq.Node
open Podseq.Lib Podseq.Solidity

namespace TokenRegistry

variable {registry : TokenRegistry} {entries rest : List (Bytes × EvmAddress)}
  {coinType c : Bytes} {token t : EvmAddress}

/-- No token is the first one inserted for two coin types. -/
def FirstTokensDiffer (entries : List (Bytes × EvmAddress)) : Prop :=
  ∀ c c' t, entries.lookup c = some t → entries.lookup c' = some t → c = c'

/-- The pair is held in both directions. -/
def Holds (registry : TokenRegistry) (coinType : Bytes) (token : EvmAddress) : Prop :=
  registry.tokenFor coinType = some token ∧ registry.coinFor token = some coinType

/-- What the registry is restored to from its snapshot has the same entries in both maps. -/
def Restores (registry : TokenRegistry) : Prop :=
  ∃ restored, fromSnapshot registry.snapshot = .ok restored ∧
    (∀ c, restored.tokenFor c = registry.tokenFor c) ∧
    ∀ t, restored.coinFor t = registry.coinFor t

/-- After each of the insertions the maps are inverse, the snapshot restores the registry, and
every pair accepted so far is held. -/
def Consistent (entries : List (Bytes × EvmAddress)) : Prop :=
  ∀ done, done <+: entries → (empty.insertAll done).Paired ∧ (empty.insertAll done).Restores ∧
    ∀ before c t, before ++ [(c, t)] <+: done →
      ((empty.insertAll before).insert c t).2 = true → (empty.insertAll done).Holds c t

/-- An insertion that is refused changes nothing. -/
theorem insert_of_refused (h : (registry.insert coinType token).2 = false) :
    (registry.insert coinType token).1 = registry := by
  unfold insert at h ⊢
  split
  · rename_i existing hex
    rw [hex] at h
    split_ifs with hne
    · rfl
    · simp [hne] at h
  · rename_i hnone
    simp [hnone] at h

/-- An insertion that is accepted is found under its coin type. -/
theorem tokenFor_insert_of_accepted (h : (registry.insert coinType token).2 = true) :
    (registry.insert coinType token).1.tokenFor coinType = some token := by
  unfold insert at h ⊢
  split
  · rename_i existing hex
    rw [hex] at h
    split_ifs with hne
    · simp [hne] at h
    · rw [tokenFor_record, if_pos rfl]
  · rw [tokenFor_record, if_pos rfl]

theorem lookup_of_isPrefix (hpre : entries <+: rest) (h : entries.lookup c = some t) :
    rest.lookup c = some t := by
  obtain ⟨later, rfl⟩ := hpre
  rw [List.lookup_append, h, Option.some_or]

theorem FirstTokensDiffer.of_isPrefix (h : FirstTokensDiffer rest) (hpre : entries <+: rest) :
    FirstTokensDiffer entries := by
  intro c c' t hc hc'
  exact h c c' t (lookup_of_isPrefix hpre hc) (lookup_of_isPrefix hpre hc')

theorem FirstTokensDiffer.paired (h : FirstTokensDiffer entries) :
    (empty.insertAll entries).Paired := by
  induction entries using List.reverseRecOn with
  | nil => exact empty_paired
  | append_singleton entries e ih =>
    have hpaired := ih (h.of_isPrefix (List.prefix_append _ _))
    rw [insertAll_concat]
    cases haccepted : ((empty.insertAll entries).insert e.1 e.2).2 with
    | false =>
      rw [insert_of_refused haccepted]
      exact hpaired
    | true =>
      have hlookup := tokenFor_insert_of_accepted haccepted
      rw [← insertAll_concat, tokenFor_insertAll_empty] at hlookup
      refine hpaired.insert fun c hc => ?_
      rw [tokenFor_insertAll_empty] at hc
      exact h c e.1 e.2 (lookup_of_isPrefix (List.prefix_append _ _) hc) hlookup

theorem Paired.restores (h : registry.Paired) : registry.Restores := by
  obtain ⟨restored, hok, htokens, hpaired⟩ := fromSnapshot_snapshot h
  refine ⟨restored, hok, htokens, fun t => ?_⟩
  ext c
  rw [hpaired c t, htokens, h c t]

/-- Two coin types of one token show in the address map, which names only one of them. -/
theorem Paired.firstTokensDiffer (h : (empty.insertAll entries).Paired) :
    FirstTokensDiffer entries := by
  intro c c' t hc hc'
  rw [← tokenFor_insertAll_empty, ← h] at hc hc'
  exact Option.some.inj (hc.symm.trans hc')

/-- **When the token registry is a bijection.** After every list of insertions, refused ones
included, the maps have stayed inverse, accepted pairs have stayed as they were and every
snapshot restores the registry it was taken of, exactly when no token is the first one inserted
for two coin types. -/
theorem consistent_iff (entries : List (Bytes × EvmAddress)) :
    Consistent entries ↔ FirstTokensDiffer entries := by
  constructor
  · intro h
    exact (h entries List.prefix_rfl).1.firstTokensDiffer
  · intro h done hdone
    have hpaired := (h.of_isPrefix hdone).paired
    refine ⟨hpaired, hpaired.restores, fun before c t hbefore haccepted => ?_⟩
    have hfirst := tokenFor_insert_of_accepted haccepted
    rw [← insertAll_concat, tokenFor_insertAll_empty] at hfirst
    have htoken := lookup_of_isPrefix hbefore hfirst
    rw [← tokenFor_insertAll_empty] at htoken
    exact ⟨htoken, (hpaired c t).2 htoken⟩

/-- The zero token accepted for two coin types: the address map forgets the first of them. -/
theorem one_token_twice : ¬∀ entries, Consistent entries := by
  intro h
  have hpaired := (h [([1], ⟨List.replicate 20 0, rfl⟩), ([2], ⟨List.replicate 20 0, rfl⟩)]
    _ List.prefix_rfl).1
  have hsame := hpaired.firstTokensDiffer [1] [2] ⟨List.replicate 20 0, rfl⟩ rfl rfl
  exact absurd hsame (by decide)

end TokenRegistry

end Podseq.Node
