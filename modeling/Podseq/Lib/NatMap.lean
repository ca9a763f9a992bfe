import Mathlib

/-! # Ordered maps on numbers, and runs of consecutive keys

`NatMap` is the ordered map of the standard library at `Nat`. `keysWhere` collects the keys
whose value meets a predicate and `runFrom` counts how many consecutive keys, from a given one
on, do. How many keys meet the predicate at all says nothing about where they stand: the two
numbers agree exactly when the keys outside the run make up for its start.
-/
namespace Podseq.Lib

/-- An ordered map keyed by `Nat`. -/
abbrev NatMap (ν : Type) := Std.TreeMap Nat ν compare

namespace NatMap

variable {ν : Type} {m : NatMap ν} {p : ν → Bool} {k n start fuel : Nat} {v : ν}

theorem getElem?_insert : (m.insert k v)[n]? = if n = k then some v else m[n]? := by
  rw [Std.TreeMap.getElem?_insert]
  simp only [Nat.compare_eq_eq, eq_comm (a := k)]

/-- The keys whose value meets `p`. -/
def keysWhere (p : ν → Bool) (m : NatMap ν) : Finset Nat :=
  ((m.toList.filter fun e => p e.2).map Prod.fst).toFinset

/-- How many values meet `p`. -/
def countWhere (p : ν → Bool) (m : NatMap ν) : Nat := (m.toList.filter fun e => p e.2).length

def holdsAt (p : ν → Bool) (m : NatMap ν) (n : Nat) : Bool := (m[n]?).any p

theorem mem_keysWhere : n ∈ m.keysWhere p ↔ m.holdsAt p n := by
  simp only [keysWhere, holdsAt, List.mem_toFinset, List.mem_map, List.mem_filter, Prod.exists,
    exists_and_right, exists_eq_right, Std.TreeMap.mem_toList_iff_getElem?_eq_some,
    Option.any_eq_true]

theorem card_keysWhere : (m.keysWhere p).card = m.countWhere p := by
  have hnodup : ((m.toList.filter fun e => p e.2).map Prod.fst).Nodup := by
    refine List.Nodup.sublist (List.filter_sublist.map _) ?_
    rw [Std.TreeMap.map_fst_toList_eq_keys]
    exact Std.TreeMap.nodup_keys
  rw [keysWhere, List.toFinset_card_of_nodup hnodup, List.length_map, countWhere]

theorem countWhere_le_size : m.countWhere p ≤ m.size := by
  rw [countWhere, ← Std.TreeMap.length_toList]
  exact List.length_filter_le _ _

/-! ## Runs of consecutive keys -/

/-- How many consecutive keys from `start` on meet `p`, looking at `fuel` keys at most. -/
def runUpTo (p : ν → Bool) (m : NatMap ν) : Nat → Nat → Nat
  | 0, _ => 0
  | fuel + 1, start => if m.holdsAt p start then runUpTo p m fuel (start + 1) + 1 else 0

/-- How many consecutive keys from `start` on meet `p`: no run is longer than the map. -/
def runFrom (p : ν → Bool) (m : NatMap ν) (start : Nat) : Nat := m.runUpTo p m.size start

theorem runUpTo_holds (h : start ≤ n) (hn : n < start + m.runUpTo p fuel start) :
    m.holdsAt p n := by
  induction fuel generalizing start with
  | zero => simp only [runUpTo] at hn; omega
  | succ fuel ih =>
    simp only [runUpTo] at hn
    split at hn
    · rename_i hs
      rcases Nat.eq_or_lt_of_le h with rfl | hlt
      · exact hs
      · exact ih (Nat.succ_le_of_lt hlt) (by rw [Nat.succ_eq_add_one]; omega)
    · omega

theorem runUpTo_stops (h : m.runUpTo p fuel start < fuel) :
    ¬ m.holdsAt p (start + m.runUpTo p fuel start) := by
  induction fuel generalizing start with
  | zero => omega
  | succ fuel ih =>
    simp only [runUpTo] at h ⊢
    split
    · rename_i hs
      rw [if_pos hs] at h
      rw [show start + (m.runUpTo p fuel (start + 1) + 1)
        = start + 1 + m.runUpTo p fuel (start + 1) by omega]
      exact ih (by omega)
    · assumption

theorem runUpTo_le : m.runUpTo p fuel start ≤ fuel := by
  induction fuel generalizing start with
  | zero => exact Nat.le_refl _
  | succ fuel ih =>
    simp only [runUpTo]
    split
    · exact Nat.succ_le_succ ih
    · exact Nat.zero_le _

theorem runFrom_holds (h : start ≤ n) (hn : n < start + m.runFrom p start) : m.holdsAt p n :=
  runUpTo_holds h hn

/-- The run ends where it says: the next key does not meet `p`. -/
theorem runFrom_stops : ¬ m.holdsAt p (start + m.runFrom p start) := by
  have hle : m.runUpTo p m.size start ≤ m.size := runUpTo_le
  rcases Nat.lt_or_eq_of_le hle with h | h
  · exact runUpTo_stops h
  · -- a run of `size` keys that went on would be more keys than the map holds
    intro hs
    have hsub : Finset.Ico start (start + m.size + 1) ⊆ m.keysWhere p := by
      intro n hn
      rw [Finset.mem_Ico] at hn
      rw [mem_keysWhere]
      rcases Nat.eq_or_lt_of_le (Nat.le_of_lt_succ hn.2) with rfl | hlt
      · rw [runFrom, h] at hs; exact hs
      · exact runFrom_holds hn.1 (by rw [runFrom, h]; exact hlt)
    have hcard := Finset.card_le_card hsub
    rw [Nat.card_Ico, card_keysWhere] at hcard
    have hcount : m.countWhere p ≤ m.size := countWhere_le_size
    omega

/-- The run is the only number of keys from `start` on that all meet `p` with the next one
failing to. -/
theorem runFrom_unique (hk : ∀ n, start ≤ n → n < start + k → m.holdsAt p n)
    (hstop : ¬ m.holdsAt p (start + k)) : m.runFrom p start = k := by
  rcases Nat.lt_trichotomy (m.runFrom p start) k with h | h | h
  · exact absurd (hk _ (Nat.le_add_right _ _) (by omega)) runFrom_stops
  · exact h
  · exact absurd (runFrom_holds (Nat.le_add_right _ _) (by omega)) hstop

/-- How many keys that meet `p` stand outside the run from `start`. -/
def strayFrom (p : ν → Bool) (m : NatMap ν) (start : Nat) : Nat :=
  ((m.keysWhere p).filter fun n => ¬ (start ≤ n ∧ n < start + m.runFrom p start)).card

theorem countWhere_eq_run_add_stray (start : Nat) :
    m.countWhere p = m.runFrom p start + m.strayFrom p start := by
  have hrun : (m.keysWhere p).filter (fun n => start ≤ n ∧ n < start + m.runFrom p start)
      = Finset.Ico start (start + m.runFrom p start) := by
    ext n
    simp only [Finset.mem_filter, mem_keysWhere, Finset.mem_Ico, and_iff_right_iff_imp]
    exact fun h => runFrom_holds h.1 h.2
  have hsplit := Finset.card_filter_add_card_filter_not (s := m.keysWhere p)
    fun n => start ≤ n ∧ n < start + m.runFrom p start
  rw [hrun, Nat.card_Ico, card_keysWhere] at hsplit
  rw [strayFrom, ← hsplit]; omega

/-- When a count can stand in for a prefix: raising `start` to the number of keys that meet `p`
reaches the end of the run exactly when the keys outside the run are as many as `start`, or
there is no run to reach and they are no more. -/
theorem max_count_eq_run_iff :
    max start (m.countWhere p) = start + m.runFrom p start ↔
      m.strayFrom p start = start ∨ m.runFrom p start = 0 ∧ m.strayFrom p start ≤ start := by
  rw [countWhere_eq_run_add_stray start]
  omega

end NatMap

end Podseq.Lib
