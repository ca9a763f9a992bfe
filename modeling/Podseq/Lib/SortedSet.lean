import Mathlib

/-! # Sorting and removing duplicates

A list that was sorted has equal elements next to each other, so that dropping each element equal
to the one kept before it leaves every element once.
-/
namespace Podseq.Lib

variable {α : Type*} [Ord α] {xs : List α} {x a : α}

/-- The list in ascending order. -/
def sorted (xs : List α) : List α := xs.mergeSort fun a b => (compare a b).isLE

theorem mem_sorted : x ∈ sorted xs ↔ x ∈ xs := List.mem_mergeSort

section Order
variable [Std.TransOrd α]

theorem pairwise_sorted : (sorted xs).Pairwise fun a b => (compare a b).isLE := by
  refine List.pairwise_mergeSort (fun a b c => ?_) (fun a b => ?_) xs
  · exact Std.TransCmp.isLE_trans
  · have hswap : compare b a = (compare a b).swap := Std.OrientedCmp.eq_swap
    rw [hswap]
    cases compare a b <;> rfl

variable [Std.LawfulEqOrd α]

/-- Where neighbours differ, an ascending list has no element twice. -/
theorem nodup_of_ascending (hle : xs.Pairwise fun a b => (compare a b).isLE)
    (hne : xs.IsChain (· ≠ ·)) : xs.Nodup := by
  have hlt : xs.IsChain fun a b => compare a b = .lt := by
    refine List.isChain_iff_getElem.2 fun i hi => ?_
    have hnext := List.isChain_iff_getElem.1 hle.isChain i hi
    have hdiffer := List.isChain_iff_getElem.1 hne i hi
    rw [Ordering.isLE_iff_eq_lt_or_eq_eq] at hnext
    exact hnext.resolve_right fun heq => hdiffer (Std.LawfulEqCmp.eq_of_compare heq)
  have htrans : Trans (fun a b : α => compare a b = .lt) (fun a b => compare a b = .lt)
      (fun a b => compare a b = .lt) := ⟨Std.TransCmp.lt_trans⟩
  refine (List.isChain_iff_pairwise.1 hlt).imp fun {a b} (hab : compare a b = .lt) heq => ?_
  have hself : compare b b = .eq := Std.ReflCmp.compare_self
  rw [heq, hself] at hab
  cases hab

end Order

section Dedup
variable [DecidableEq α]

/-- Keeps one of each row of equal elements. -/
def dedupAdjacent (xs : List α) : List α := xs.destutter (· ≠ ·)

omit [Ord α] in
theorem mem_destutter'_ne : x ∈ xs.destutter' (· ≠ ·) a ↔ x = a ∨ x ∈ xs := by
  induction xs generalizing a with
  | nil => simp
  | cons b xs ih =>
    by_cases hab : a = b
    · subst hab
      rw [List.destutter'_cons_neg _ (not_not.2 rfl), ih, List.mem_cons]
      tauto
    · rw [List.destutter'_cons_pos _ hab, List.mem_cons, ih, List.mem_cons]

omit [Ord α] in
theorem mem_dedupAdjacent : x ∈ dedupAdjacent xs ↔ x ∈ xs := by
  cases xs with
  | nil => rfl
  | cons b xs => rw [dedupAdjacent, List.destutter_cons', mem_destutter'_ne, List.mem_cons]

/-- The distinct elements, each once. -/
theorem toFinset_dedupAdjacent_sorted :
    (dedupAdjacent (sorted xs)).toFinset = xs.toFinset := by
  ext x
  rw [List.mem_toFinset, List.mem_toFinset, mem_dedupAdjacent, mem_sorted]

/-- The first `n` of the distinct elements. -/
theorem toFinset_take_subset {n : ℕ} :
    ((dedupAdjacent (sorted xs)).take n).toFinset ⊆ xs.toFinset := by
  intro x hx
  rw [List.mem_toFinset] at hx ⊢
  exact mem_sorted.1 (mem_dedupAdjacent.1 (List.mem_of_mem_take hx))

variable [Std.TransOrd α] [Std.LawfulEqOrd α]

theorem nodup_dedupAdjacent_sorted : (dedupAdjacent (sorted xs)).Nodup :=
  nodup_of_ascending (pairwise_sorted.sublist (List.destutter_sublist _ _))
    (List.isChain_destutter _ _)

theorem length_dedupAdjacent_sorted :
    (dedupAdjacent (sorted xs)).length = xs.toFinset.card := by
  rw [← toFinset_dedupAdjacent_sorted, List.toFinset_card_of_nodup nodup_dedupAdjacent_sorted]

theorem card_toFinset_take {n : ℕ} :
    ((dedupAdjacent (sorted xs)).take n).toFinset.card = min n xs.toFinset.card := by
  have hnodup := nodup_dedupAdjacent_sorted.sublist
    (List.take_sublist n (dedupAdjacent (sorted xs)))
  rw [List.toFinset_card_of_nodup hnodup, List.length_take, length_dedupAdjacent_sorted]

end Dedup

end Podseq.Lib
