import Podseq.Lib.Fallible
import Podseq.Node.ChainState

/-! # Block timestamps and the wall clock

A timestamp is in whole seconds, one above both the clock and the block before it. Blocks that
are a second or more apart keep to the clock; closer ones push the timestamp ahead of it, and
nothing brings it back.
-/
namespace Podseq.Node
open Podseq.Lib

/-- The block time of a runner, from `block_time_ms`. -/
def clampBlockTime (blockTimeMs : Nat) : Nat := max blockTimeMs 100

/-- `now_unix`, for a wall clock in milliseconds. -/
def nowUnix (clockMs : Nat) : Nat := clockMs / 1000

/-- The timestamp of a block on one of `timestamp`, built at `unixNow`. -/
def nextTimestamp (timestamp unixNow : Nat) : Nat := max timestamp unixNow + 1

def settleBlockTs (headerTimestampSecs : Nat) : Nat := min (headerTimestampSecs * 1000) u64Max

/-- A call of `produce_block`: when, and the block that the engine built and accepted, if any. -/
structure Production where
  clockMs : Nat
  accepted : Option B256

namespace ChainState

/-- The pointers after a call; a block that was not accepted leaves them as they are. -/
def produce (s : ChainState) (p : Production) : ChainState :=
  match p.accepted with
  | none => s
  | some hash => { s with head := hash, timestamp := nextTimestamp s.timestamp (nowUnix p.clockMs) }

/-- The blocks produced, each with the clock at its production and its timestamp. -/
def blockTimes (s : ChainState) : List Production → List (Nat × Nat)
  | [] => []
  | p :: ps =>
    match p.accepted with
    | none => blockTimes (s.produce p) ps
    | some _ =>
      (p.clockMs, nextTimestamp s.timestamp (nowUnix p.clockMs)) :: blockTimes (s.produce p) ps

/-- The timestamps go up from that of `s`, at most one second ahead of the clock, and so does
what is passed to `settle`. -/
structure KeepsTime (s : ChainState) (blocks : List (Nat × Nat)) : Prop where
  increasing : (s.timestamp :: blocks.map Prod.snd).Pairwise (· < ·)
  ahead : ∀ b ∈ blocks, b.2 ≤ nowUnix b.1 + 1
  settled : ∀ b ∈ blocks, settleBlockTs b.2 ≤ b.1 + 1000

/-- The state a runner starts from has no timestamp above its first clock. -/
def StartsBy (s : ChainState) (ps : List Production) : Prop :=
  ∀ p ∈ ps.head?, s.timestamp ≤ nowUnix p.clockMs

/-- Calls at least `spacing` apart. -/
def Spaced (spacing : Nat) (ps : List Production) : Prop :=
  ps.IsChain fun p q => p.clockMs + spacing ≤ q.clockMs

variable {s : ChainState} {p : Production} {ps : List Production} {spacing : Nat}

/-- What a call does to the timestamp when the clock has caught up with it. -/
theorem produce_timestamp (h : s.timestamp ≤ nowUnix p.clockMs) :
    (s.produce p).timestamp ≤ nowUnix p.clockMs + 1 := by
  unfold produce
  split
  · exact h.trans (Nat.le_succ _)
  · exact (congrArg (· + 1) (max_eq_right h)).le

theorem startsBy_produce (hspacing : 1000 ≤ spacing) (hs : StartsBy s (p :: ps))
    (hchain : Spaced spacing (p :: ps)) : StartsBy (s.produce p) ps := by
  intro q hq
  have hnext : p.clockMs + spacing ≤ q.clockMs := by
    cases ps with
    | nil => cases hq
    | cons q' ps =>
      cases hq
      exact (List.isChain_cons_cons.1 hchain).1
  have hbound := produce_timestamp (hs p rfl)
  have hsecond : nowUnix p.clockMs + 1 ≤ nowUnix q.clockMs := by
    unfold nowUnix
    omega
  exact hbound.trans hsecond

theorem settleBlockTs_le {timestamp clockMs : Nat} (h : timestamp ≤ nowUnix clockMs + 1) :
    settleBlockTs timestamp ≤ clockMs + 1000 := by
  have hsaturated : settleBlockTs timestamp ≤ timestamp * 1000 := min_le_left _ _
  unfold nowUnix at h
  omega

/-- Blocks a second apart keep to the clock. -/
theorem keepsTime (hspacing : 1000 ≤ spacing) (hs : StartsBy s ps)
    (hchain : Spaced spacing ps) : KeepsTime s (s.blockTimes ps) := by
  induction ps generalizing s with
  | nil => exact ⟨List.pairwise_singleton _ _, List.forall_mem_nil _, List.forall_mem_nil _⟩
  | cons p ps ih =>
    have htail := ih (startsBy_produce hspacing hs hchain) hchain.tail
    have hfirst := hs p rfl
    obtain ⟨clockMs, accepted⟩ := p
    cases accepted with
    | none => exact htail
    | some hash =>
      have hahead : nextTimestamp s.timestamp (nowUnix clockMs) ≤ nowUnix clockMs + 1 :=
        (congrArg (· + 1) (max_eq_right hfirst)).le
      refine ⟨?_, ?_, ?_⟩
      · refine List.pairwise_cons.2 ⟨fun timestamp hmem => ?_, htail.increasing⟩
        have hlow : s.timestamp < nextTimestamp s.timestamp (nowUnix clockMs) :=
          Nat.lt_succ_of_le (le_max_left _ _)
        rcases List.mem_cons.1 hmem with rfl | hmem
        · exact hlow
        · exact hlow.trans (List.rel_of_pairwise_cons htail.increasing hmem)
      · intro b hb
        rcases List.mem_cons.1 hb with rfl | hb
        · exact hahead
        · exact htail.ahead b hb
      · intro b hb
        rcases List.mem_cons.1 hb with rfl | hb
        · exact settleBlockTs_le hahead
        · exact htail.settled b hb

/-! ## Blocks closer than a second -/

def allAccepted (clocks : List Nat) : List Production :=
  clocks.map fun clockMs => ⟨clockMs, some .zero⟩

/-- Each block takes at least a second of the timestamps. -/
theorem exists_behind (clocks : List Nat) (last : Nat) :
    ∃ b ∈ s.blockTimes (allAccepted (clocks ++ [last])),
      b.1 = last ∧ s.timestamp + clocks.length + 1 ≤ b.2 := by
  induction clocks generalizing s with
  | nil =>
    refine ⟨(last, nextTimestamp s.timestamp (nowUnix last)), List.mem_cons_self, rfl, ?_⟩
    exact Nat.succ_le_succ (le_max_left _ _)
  | cons clockMs clocks ih =>
    obtain ⟨b, hb, hlast, hle⟩ := ih (s := s.produce ⟨clockMs, some .zero⟩)
    refine ⟨b, List.mem_cons_of_mem _ hb, hlast, ?_⟩
    have hlow : s.timestamp < (s.produce ⟨clockMs, some .zero⟩).timestamp :=
      Nat.lt_succ_of_le (le_max_left _ _)
    rw [List.length_cons]
    omega

theorem spaced_allAccepted (n : Nat) :
    Spaced spacing (allAccepted ((List.range n).map (· * spacing))) := by
  refine (List.isChain_map _).2 ((List.isChain_map _).2 ((List.isChain_range _ n).2 fun i _ => ?_))
  exact (Nat.succ_mul i spacing).ge

/-- **Timestamps keep to the clock exactly with block times of a second or more.** -/
theorem keepsTime_iff {blockTimeMs : Nat} :
    (∀ (s : ChainState) (ps : List Production), StartsBy s ps →
      Spaced (clampBlockTime blockTimeMs) ps → KeepsTime s (s.blockTimes ps)) ↔
    1000 ≤ blockTimeMs := by
  constructor
  · intro h
    by_contra hshort
    have hspacing : clampBlockTime blockTimeMs ≤ 999 := max_le (by omega) (by decide)
    -- a thousand blocks later the timestamps have gained more than a second
    have hkeeps := h ⟨.zero, .zero, .zero, 0⟩ _ (fun p _ => Nat.zero_le _)
      (spaced_allAccepted 1002)
    rw [List.range_succ, List.map_append] at hkeeps
    obtain ⟨b, hb, hclock, hbehind⟩ := exists_behind (s := ⟨.zero, .zero, .zero, 0⟩)
      ((List.range 1001).map (· * clampBlockTime blockTimeMs)) (1001 * clampBlockTime blockTimeMs)
    have hahead := hkeeps.ahead b hb
    rw [List.length_map, List.length_range] at hbehind
    rw [hclock, nowUnix] at hahead
    omega
  · intro h s ps hs hchain
    exact keepsTime (h.trans (le_max_left _ _)) hs hchain

/-- Two blocks within a tenth of a second: the second one is two seconds ahead. -/
theorem fast_blocks_ahead :
    ¬∀ (s : ChainState) (ps : List Production), StartsBy s ps →
      Spaced (clampBlockTime 100) ps → KeepsTime s (s.blockTimes ps) := by
  intro hclaim
  have hkeeps := hclaim ⟨.zero, .zero, .zero, 0⟩ [⟨0, some .zero⟩, ⟨100, some .zero⟩]
    (fun p _ => Nat.zero_le _) (List.isChain_pair.2 (by decide))
  exact absurd (hkeeps.ahead (100, 2) (by decide)) (by decide)

end ChainState

end Podseq.Node
