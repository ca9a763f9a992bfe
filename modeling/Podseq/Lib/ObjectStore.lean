import Mathlib

/-! # Objects under derived ids

The objects of a store are known by keys, and are asked for under ids that are derived from the
keys. For an object whose id is no other object's the answer is that object, and for an id of no
object that there is none.
-/
namespace Podseq.Lib

variable {κ ι β : Type*} [DecidableEq ι] {ids : κ → ι} {keys : List κ} {stored : κ → Option β}
  {key : κ} {id : ι} {b : β}

/-- What is served for an id, of the objects under `keys`. -/
def objectAt (ids : κ → ι) (keys : List κ) (stored : κ → Option β) (id : ι) : Option β :=
  keys.findSome? fun key => if ids key = id then stored key else none

theorem exists_of_objectAt (h : objectAt ids keys stored id = some b) :
    ∃ key ∈ keys, ids key = id ∧ stored key = some b := by
  obtain ⟨key, hmem, hkey⟩ := List.exists_of_findSome?_eq_some h
  rw [Option.ite_none_right_eq_some] at hkey
  exact ⟨key, hmem, hkey⟩

/-- Nothing is served for an id of no object. -/
theorem objectAt_eq_none (h : ∀ key, ids key = id → stored key = none) :
    objectAt ids keys stored id = none := by
  refine List.findSome?_eq_none_iff.2 fun key _ => ?_
  by_cases hid : ids key = id
  · rw [if_pos hid, h key hid]
  · exact if_neg hid

/-- An object with an id of its own is served for it. -/
theorem objectAt_own (hkeys : ∀ key b, stored key = some b → key ∈ keys)
    (hown : ∀ key', stored key' ≠ none → ids key' = ids key → key' = key) :
    objectAt ids keys stored (ids key) = stored key := by
  cases hfound : objectAt ids keys stored (ids key) with
  | some b =>
    obtain ⟨key', -, hid, hstored⟩ := exists_of_objectAt hfound
    have hsame : key' = key := hown key' (by simp [hstored]) hid
    rw [← hsame, hstored]
  | none =>
    cases hstored : stored key with
    | none => rfl
    | some b =>
      have hnone := List.findSome?_eq_none_iff.1 hfound key (hkeys key b hstored)
      rw [if_pos rfl, hstored] at hnone
      cases hnone

end Podseq.Lib
