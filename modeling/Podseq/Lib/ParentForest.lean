import Mathlib

/-! # Forests given by parent pointers

A node knows its parent, and a depth that grows by one from a parent to its child. The
ancestors of a node are totally ordered by their depth, so each depth has at most one.
-/
namespace Podseq.Lib

/-- Parent pointers with their depths. -/
structure ParentForest (α : Type*) where
  parent : α → Option α
  depth : α → Nat
  depth_parent : ∀ a b, parent a = some b → depth a = depth b + 1

namespace ParentForest

variable {α : Type*} {F : ParentForest α} {a b c : α}

/-- `F.Below c a`: the node `a` is `c` or one of its ancestors. -/
inductive Below (F : ParentForest α) (c : α) : α → Prop
  | refl : Below F c c
  | up {b a : α} : Below F c b → F.parent b = some a → Below F c a

namespace Below

theorem depth_le (h : F.Below c a) : F.depth a ≤ F.depth c := by
  induction h with
  | refl => exact Nat.le_refl _
  | up _ hp ih =>
    have := F.depth_parent _ _ hp
    omega

theorem trans (h : F.Below c b) (k : F.Below b a) : F.Below c a := by
  induction k with
  | refl => exact h
  | up _ hp ih => exact ih.up hp

/-- A proper ancestor is an ancestor of the parent. -/
theorem eq_or_parent (h : F.Below c a) : a = c ∨ ∃ b, F.parent c = some b ∧ F.Below b a := by
  induction h with
  | refl => exact .inl rfl
  | up _ hp ih =>
    rcases ih with rfl | ⟨b, hb, hba⟩
    · exact .inr ⟨_, hp, .refl⟩
    · exact .inr ⟨b, hb, hba.up hp⟩

theorem eq_of_depth_le (h : F.Below c a) (hd : F.depth c ≤ F.depth a) : a = c := by
  rcases h.eq_or_parent with rfl | ⟨b, hb, hba⟩
  · rfl
  · have := F.depth_parent _ _ hb
    have := hba.depth_le
    omega

/-- Two ancestors of one node lie on one line. -/
theorem total (ha : F.Below c a) (hb : F.Below c b) : F.Below a b ∨ F.Below b a := by
  induction hb with
  | refl => exact .inr ha
  | up _ hp ih =>
    rcases ih with h | h
    · exact .inl (h.up hp)
    · rcases h.eq_or_parent with rfl | ⟨p, hp', hpa⟩
      · exact .inl (Below.refl.up hp)
      · rw [hp] at hp'
        cases hp'
        exact .inr hpa

/-- Of two ancestors of one node, the shallower is an ancestor of the deeper. -/
theorem of_depth_le (ha : F.Below c a) (hb : F.Below c b) (h : F.depth a ≤ F.depth b) :
    F.Below b a := by
  rcases ha.total hb with hab | hba
  · rw [hab.eq_of_depth_le h]
    exact .refl
  · exact hba

/-- A node has one ancestor of each depth at most. -/
theorem eq_of_depth_eq (ha : F.Below c a) (hb : F.Below c b) (h : F.depth a = F.depth b) :
    a = b :=
  (ha.of_depth_le hb h.le).eq_of_depth_le h.ge

end Below

end ParentForest

end Podseq.Lib
