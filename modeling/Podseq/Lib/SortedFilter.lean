import Mathlib

/-! # Filtering a sorted list at a boundary

When no element below a boundary follows one at or above it, filtering the two sides and
appending them gives the list back.
-/
namespace Podseq.Lib

variable {α : Type*} {key : α → ℕ} {l : List α} {k lo hi : ℕ}

theorem filter_lt_append_filter_ge (h : l.Pairwise fun x y => key x ≤ key y) (k : ℕ) :
    (l.filter fun x => key x < k) ++ (l.filter fun x => k ≤ key x) = l := by
  induction l with
  | nil => rfl
  | cons x l ih =>
    obtain ⟨hx, hl⟩ := List.pairwise_cons.1 h
    by_cases hk : key x < k
    · rw [List.filter_cons_of_pos (by simpa using hk),
        List.filter_cons_of_neg (by simpa using hk), List.cons_append, ih hl]
    · have hnone : (l.filter fun y => key y < k) = [] := by
        rw [List.filter_eq_nil_iff]
        intro y hy
        have := hx y hy
        simp only [decide_eq_true_eq]
        omega
      have hrest := ih hl
      rw [hnone, List.nil_append] at hrest
      rw [List.filter_cons_of_neg (by simpa using hk),
        List.filter_cons_of_pos (by simpa using hk), hnone, List.nil_append, hrest]

end Podseq.Lib
