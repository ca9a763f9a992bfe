import Podseq.Lib.FixedBytes

/-! # The produced-but-unsettled heights

`pending.json` holds a sorted list without repetitions. `mark` and `clear` are idempotent.
-/
namespace Podseq.Node

structure PendingStore where
  heights : List Nat
  sorted : heights.Pairwise (· < ·)

namespace PendingStore

def empty : PendingStore := ⟨[], .nil⟩

/-- Inserts `height` where a binary search puts it. -/
def insertSorted (height : Nat) : List Nat → List Nat
  | [] => [height]
  | h :: rest =>
    if height < h then height :: h :: rest
    else if height = h then h :: rest
    else h :: insertSorted height rest

variable {height h : Nat} {heights : List Nat} {store : PendingStore}

@[simp] theorem mem_insertSorted :
    h ∈ insertSorted height heights ↔ h = height ∨ h ∈ heights := by
  induction heights with
  | nil => simp [insertSorted]
  | cons x rest ih =>
    unfold insertSorted
    split
    · simp
    · split
      · simp_all
      · simp only [List.mem_cons, ih]
        tauto

theorem insertSorted_sorted (hs : heights.Pairwise (· < ·)) :
    (insertSorted height heights).Pairwise (· < ·) := by
  induction heights with
  | nil => exact List.pairwise_singleton ..
  | cons x rest ih =>
    obtain ⟨hx, hrest⟩ := List.pairwise_cons.1 hs
    unfold insertSorted
    split
    · rename_i hlt
      refine List.pairwise_cons.2 ⟨fun y hy => ?_, hs⟩
      rcases List.mem_cons.1 hy with rfl | hy
      · exact hlt
      · exact hlt.trans (hx y hy)
    · split
      · exact hs
      · refine List.pairwise_cons.2 ⟨fun y hy => ?_, ih hrest⟩
        rcases mem_insertSorted.1 hy with rfl | hy
        · omega
        · exact hx y hy

def mark (store : PendingStore) (height : Nat) : PendingStore :=
  ⟨insertSorted height store.heights, insertSorted_sorted store.sorted⟩

def clear (store : PendingStore) (height : Nat) : PendingStore :=
  ⟨store.heights.erase height, store.sorted.sublist List.erase_sublist⟩

theorem nodup (store : PendingStore) : store.heights.Nodup := store.sorted.imp Nat.ne_of_lt

@[simp] theorem mem_mark : h ∈ (store.mark height).heights ↔ h = height ∨ h ∈ store.heights :=
  mem_insertSorted

@[simp] theorem mem_clear : h ∈ (store.clear height).heights ↔ h ≠ height ∧ h ∈ store.heights :=
  store.nodup.mem_erase_iff

end PendingStore

end Podseq.Node
