import Mathlib

/-! # Balances with a total

A ledger is a function from accounts to balances. `Total f n` says that only finitely many
accounts hold anything and that together they hold `n`; crediting, debiting and moving are then
facts about the total alone.
-/
namespace Podseq.Lib

variable {α : Type*} {f : α → ℕ} {n k v : ℕ} {a b : α}

/-- The balances `f` are finitely many and add up to `n`. -/
def Total (f : α → ℕ) (n : ℕ) : Prop :=
  ∃ s : Finset α, Function.support f ⊆ s ∧ ∑ x ∈ s, f x = n

namespace Total

theorem zero : Total (fun _ : α => 0) 0 := ⟨∅, by simp, rfl⟩

/-- The accounts of a ledger can be listed so that a given one is among them. -/
theorem exists_mem (h : Total f n) (a : α) :
    ∃ s : Finset α, Function.support f ⊆ s ∧ a ∈ s ∧ ∑ x ∈ s, f x = n := by
  classical
  obtain ⟨s, hs, rfl⟩ := h
  refine ⟨insert a s, ?_, Finset.mem_insert_self a s, ?_⟩
  · exact hs.trans (by simp)
  · refine (Finset.sum_subset (Finset.subset_insert a s) fun x _ hx => ?_).symm
    by_contra hne
    exact hx (hs hne)

theorem le (h : Total f n) (a : α) : f a ≤ n := by
  obtain ⟨s, -, ha, rfl⟩ := h.exists_mem a
  exact Finset.single_le_sum (fun _ _ => Nat.zero_le _) ha

/-- Writing one balance moves the total by the difference. -/
theorem update [DecidableEq α] (h : Total f n) (a : α) (v : ℕ) :
    Total (Function.update f a v) (n - f a + v) := by
  obtain ⟨s, hs, ha, rfl⟩ := h.exists_mem a
  refine ⟨s, fun x hx => ?_, ?_⟩
  · by_cases hxa : x = a
    · exact hxa ▸ ha
    · rw [Function.mem_support, Function.update_of_ne hxa] at hx
      exact hs hx
  · rw [Finset.sum_update_of_mem ha, ← Finset.add_sum_erase s f ha, Finset.erase_eq]
    omega

theorem credit [DecidableEq α] (h : Total f n) (a : α) (k : ℕ) :
    Total (Function.update f a (f a + k)) (n + k) := by
  have hle := h.le a
  have hu := h.update a (f a + k)
  rwa [show n - f a + (f a + k) = n + k by omega] at hu

theorem debit [DecidableEq α] (h : Total f n) (hk : k ≤ f a) :
    Total (Function.update f a (f a - k)) (n - k) := by
  have hle := h.le a
  have hu := h.update a (f a - k)
  rwa [show n - f a + (f a - k) = n - k by omega] at hu

/-- A debit of one account followed by a credit of any, the same one included, keeps the
total. -/
theorem move [DecidableEq α] (h : Total f n) (hk : k ≤ f a) (b : α) :
    Total (Function.update (Function.update f a (f a - k)) b
      (Function.update f a (f a - k) b + k)) n := by
  have hle := h.le a
  have hc := (h.debit hk).credit b k
  rwa [Nat.sub_add_cancel (hk.trans hle)] at hc

/-- After a debit, every account has room for a credit of the same size below the total. -/
theorem debit_add_le [DecidableEq α] (h : Total f n) (hk : k ≤ f a) (b : α) :
    Function.update f a (f a - k) b + k ≤ n := by
  have hle := h.le a
  have hb := (h.debit hk).le b
  omega

end Total

/-! ## Claims on a journal -/

section
variable {S : Finset α} {claims : α → List (ℕ × ℕ)} {journal : ℕ → ℕ} {N : ℕ}

/-- Claims with distinct keys, each for the value filed under its key. -/
theorem sum_claims {l : List (ℕ × ℕ)} (hkeys : (l.map Prod.fst).Nodup)
    (hvalue : ∀ p ∈ l, p.2 = journal p.1) :
    (l.map Prod.snd).sum = ∑ n ∈ (l.map Prod.fst).toFinset, journal n := by
  rw [List.sum_toFinset journal hkeys, List.map_map]
  exact congrArg List.sum (List.map_congr_left hvalue)

/-- When each entry of a journal is claimed at most once, and by one holder, the claims of all
holders add up to no more than the journal. -/
theorem sum_claims_le (hkeys : ∀ x ∈ S, ((claims x).map Prod.fst).Nodup)
    (honce : ∀ x ∈ S, ∀ y ∈ S, ∀ n, n ∈ (claims x).map Prod.fst →
      n ∈ (claims y).map Prod.fst → x = y)
    (hvalue : ∀ x ∈ S, ∀ p ∈ claims x, p.1 < N ∧ p.2 = journal p.1) :
    ∑ x ∈ S, ((claims x).map Prod.snd).sum ≤ ∑ n ∈ Finset.range N, journal n := by
  classical
  have hdisjoint : (S : Set α).PairwiseDisjoint fun x => ((claims x).map Prod.fst).toFinset := by
    intro x hx y hy hne
    rw [Function.onFun, Finset.disjoint_left]
    intro n hn hn'
    exact hne (honce x hx y hy n (List.mem_toFinset.1 hn) (List.mem_toFinset.1 hn'))
  have hsub : S.biUnion (fun x => ((claims x).map Prod.fst).toFinset) ⊆ Finset.range N := by
    intro n hn
    obtain ⟨x, hx, hn⟩ := Finset.mem_biUnion.1 hn
    obtain ⟨p, hp, rfl⟩ := List.mem_map.1 (List.mem_toFinset.1 hn)
    exact Finset.mem_range.2 (hvalue x hx p hp).1
  calc ∑ x ∈ S, ((claims x).map Prod.snd).sum
      = ∑ x ∈ S, ∑ n ∈ ((claims x).map Prod.fst).toFinset, journal n :=
        Finset.sum_congr rfl fun x hx => sum_claims (hkeys x hx) fun p hp => (hvalue x hx p hp).2
    _ = ∑ n ∈ S.biUnion fun x => ((claims x).map Prod.fst).toFinset, journal n :=
        (Finset.sum_biUnion hdisjoint).symm
    _ ≤ ∑ n ∈ Finset.range N, journal n := Finset.sum_le_sum_of_subset hsub

end

end Podseq.Lib
