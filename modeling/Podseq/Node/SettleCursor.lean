import Podseq.Node.InboxTracker

/-! # What the settle cursor covers

The contract reads the cursor as a prefix: it prunes every nonce below it. The sequencer
computes it as a count of markers, wherever they stand.
-/
namespace Podseq.Node
open Podseq.Lib

namespace InboxStore

/-- How many consecutive nonces from `c` on the store records as included. -/
def includedRun (store : InboxStore) (c : Nat) : Nat :=
  store.nonces.runFrom NonceRecord.isIncluded c

/-- How many included nonces stand outside that run, below `c` or past its end. -/
def strayCount (store : InboxStore) (c : Nat) : Nat :=
  store.nonces.strayFrom NonceRecord.isIncluded c

variable {store : InboxStore} {c k n : Nat}

/-- `includedRun` is what its name says: every nonce of the run is included and the next one is
not. -/
theorem includedRun_eq_iff :
    store.includedRun c = k ↔
      (∀ n, c ≤ n → n < c + k → store.Included n) ∧ ¬ store.Included (c + k) := by
  constructor
  · rintro rfl
    exact ⟨fun n h₁ h₂ => holdsAt_isIncluded_iff.1 (NatMap.runFrom_holds h₁ h₂),
      fun h => NatMap.runFrom_stops (holdsAt_isIncluded_iff.2 h)⟩
  · rintro ⟨h₁, h₂⟩
    exact NatMap.runFrom_unique (fun n hc hn => holdsAt_isIncluded_iff.2 (h₁ n hc hn))
      (fun h => h₂ (holdsAt_isIncluded_iff.1 h))

/-- The stores the poller and the producer can leave behind. -/
inductive Call
  | recordSubmitted (nonce deadlineHeight deadlineMs firstSeenHeight : Nat)
      (txHash txBytes : String)
  | markIncluded (nonce height : Nat)
deriving DecidableEq, Repr

/-- One call; a rejected call leaves the store as it was and is no step. -/
def exec (store : InboxStore) : Call → Option InboxStore
  | .recordSubmitted nonce deadlineHeight deadlineMs firstSeenHeight txHash txBytes =>
    (store.recordSubmitted nonce deadlineHeight deadlineMs firstSeenHeight txHash txBytes).toOption
  | .markIncluded nonce height => (store.markIncluded nonce height).toOption

/-- The cursor the node settles with covers exactly the included prefix from `c` on. -/
def CoversPrefix (store : InboxStore) (c : Nat) : Prop :=
  InboxTracker.commitCursor c (InboxTracker.settleCursor store) = c + store.includedRun c

end InboxStore

open InboxStore

/-- **When the settle cursor is the included prefix**: exactly when the included nonces outside
the run that starts at the on-chain cursor `c` are `c` in number, or nothing is included at `c`
and they are no more than `c`. -/
theorem coversPrefix_iff (store : InboxStore) (c : Nat) :
    store.CoversPrefix c ↔
      store.strayCount c = c ∨ store.includedRun c = 0 ∧ store.strayCount c ≤ c := by
  unfold CoversPrefix InboxTracker.commitCursor InboxTracker.settleCursor
  rw [Nat.max_comm]
  exact NatMap.max_count_eq_run_iff

/-- A store that holds every nonce below `c`, and none past the run, settles with the prefix. -/
theorem coversPrefix_of_prefix {store : InboxStore} {c : Nat}
    (hbelow : ∀ n, n < c → store.Included n)
    (hpast : ∀ n, c + store.includedRun c ≤ n → ¬ store.Included n) : store.CoversPrefix c := by
  have hstray : (store.nonces.keysWhere NonceRecord.isIncluded).filter
      (fun n => ¬ (c ≤ n ∧ n < c + store.includedRun c)) = Finset.range c := by
    ext n
    rw [Finset.mem_filter, NatMap.mem_keysWhere, holdsAt_isIncluded_iff, Finset.mem_range]
    constructor
    · rintro ⟨hi, hout⟩
      by_contra hge
      exact hpast n (by omega) hi
    · intro hlt
      exact ⟨hbelow n hlt, by omega⟩
  have hcount : store.strayCount c = c :=
    (congrArg Finset.card hstray).trans (Finset.card_range c)
  unfold CoversPrefix InboxTracker.commitCursor InboxTracker.settleCursor
  rw [Nat.max_comm]
  exact NatMap.max_count_eq_run_iff.2 (.inl hcount)

/-- **An out-of-order inclusion over-counts.** Nonces 0 and 1 are submitted and only 1 is
included: the node settles with cursor 1, and the contract prunes nonce 0. A store started empty
against an on-chain cursor of 5 fails the other way. -/
theorem settleCursor_not_prefix :
    ¬ ∀ store, Reachable (· = InboxStore.fresh) (enabled exec) store →
      ∀ c, store.CoversPrefix c := by
  intro h
  have hrun : Run (enabled exec) InboxStore.fresh
      [.recordSubmitted 0 300 600000 0 "0xaa" "aa", .recordSubmitted 1 300 600000 0 "0xbb" "bb",
        .markIncluded 1 3] _ := run_of_execAll rfl
  exact absurd (h _ ⟨_, _, rfl, hrun⟩ 0) (by unfold CoversPrefix; decide)

end Podseq.Node
