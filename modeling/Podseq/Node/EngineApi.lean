import Podseq.Lib.ParentForest
import Podseq.Node.Block

/-! # The execution client

What the Engine API answers, and the blocks behind the hashes it speaks of: a hash names one
block for good, with the payload, the parent and the number that belong to it.
-/
namespace Podseq.Node
open Podseq.Lib

inductive PayloadStatus
  | valid
  | invalid
  | syncing
  | accepted
deriving DecidableEq

structure ForkchoiceState where
  headBlockHash : B256
  safeBlockHash : B256
  finalizedBlockHash : B256
deriving DecidableEq

/-- The reply to a request: `none` when the request failed. -/
abbrev Reply (α : Type) := Option α

/-- The blocks of the execution client by their hashes. A hash without a payload is one that
nothing was built above from here: genesis, or a block of another client. -/
structure BlockTree where
  payloadOf : B256 → Option ExecutionPayload
  number : B256 → Nat
  blockHash_eq : ∀ hash payload, payloadOf hash = some payload → payload.blockHash = hash
  blockNumber_eq : ∀ hash payload, payloadOf hash = some payload →
    payload.blockNumber = number hash
  number_parent : ∀ hash payload, payloadOf hash = some payload →
    number hash = number payload.parentHash + 1

namespace BlockTree

/-- The chain behind each block. -/
def forest (tree : BlockTree) : ParentForest B256 where
  parent hash := (tree.payloadOf hash).map (·.parentHash)
  depth := tree.number
  depth_parent a b h := by
    simp only [Option.map_eq_some_iff] at h
    obtain ⟨payload, hp, rfl⟩ := h
    exact tree.number_parent a payload hp

/-- The client built `payload` on `head`. -/
def Built (tree : BlockTree) (head : B256) (payload : ExecutionPayload) : Prop :=
  tree.payloadOf payload.blockHash = some payload ∧ payload.parentHash = head

instance (tree : BlockTree) (head : B256) (payload : ExecutionPayload) :
    Decidable (tree.Built head payload) := inferInstanceAs (Decidable (_ ∧ _))

/-- `payload` is the block of its number on the chain that ends in `head`. -/
def OnChain (tree : BlockTree) (head : B256) (payload : ExecutionPayload) : Prop :=
  tree.payloadOf payload.blockHash = some payload ∧ tree.forest.Below head payload.blockHash

variable {tree : BlockTree} {head head' : B256} {payload payload' : ExecutionPayload}

theorem Built.parent (h : tree.Built head payload) :
    tree.forest.parent payload.blockHash = some head := by
  simp only [forest, h.1, h.2, Option.map_some]

theorem Built.number (h : tree.Built head payload) :
    tree.number payload.blockHash = tree.number head + 1 :=
  tree.forest.depth_parent _ _ h.parent

theorem Built.blockNumber (h : tree.Built head payload) :
    payload.blockNumber = tree.number payload.blockHash := tree.blockNumber_eq _ _ h.1

/-- A new block has the chain of its parent behind it. -/
theorem Built.below (h : tree.Built head payload) : tree.forest.Below payload.blockHash head :=
  ParentForest.Below.refl.up h.parent

theorem OnChain.of_below (h : tree.OnChain head payload) (hb : tree.forest.Below head' head) :
    tree.OnChain head' payload :=
  ⟨h.1, hb.trans h.2⟩

theorem OnChain.blockNumber_pos (h : tree.OnChain head payload) : 0 < payload.blockNumber := by
  rw [tree.blockNumber_eq _ _ h.1, tree.number_parent _ _ h.1]
  exact Nat.succ_pos _

/-- A chain has one block of each number. -/
theorem OnChain.unique (h : tree.OnChain head payload) (h' : tree.OnChain head payload')
    (hn : payload.blockNumber = payload'.blockNumber) : payload = payload' := by
  rw [tree.blockNumber_eq _ _ h.1, tree.blockNumber_eq _ _ h'.1] at hn
  have heq := h.2.eq_of_depth_eq h'.2 hn
  rw [← Option.some.injEq, ← h.1, ← h'.1, heq]

/-- A block stays on the chain when the head moves along one line, but not below it. -/
theorem OnChain.of_line (h : tree.OnChain head payload)
    (hl : tree.forest.Below head head' ∨ tree.forest.Below head' head)
    (hn : payload.blockNumber ≤ tree.number head') : tree.OnChain head' payload := by
  rcases hl with hl | hl
  · rw [tree.blockNumber_eq _ _ h.1] at hn
    exact ⟨h.1, h.2.of_depth_le hl hn⟩
  · exact h.of_below hl

/-! ## Finite trees -/

def find (payloads : List ExecutionPayload) (hash : B256) : Option ExecutionPayload :=
  payloads.find? fun payload => payload.blockHash = hash

theorem mem_of_find {payloads : List ExecutionPayload} {hash : B256}
    (h : find payloads hash = some payload) : payload ∈ payloads := List.mem_of_find?_eq_some h

def numberIn (payloads : List ExecutionPayload) (hash : B256) : Nat :=
  ((find payloads hash).map (·.blockNumber)).getD 0

/-- The tree of the listed payloads. -/
def ofPayloads (payloads : List ExecutionPayload)
    (h : ∀ payload ∈ payloads, payload.blockNumber = numberIn payloads payload.parentHash + 1) :
    BlockTree where
  payloadOf := find payloads
  number := numberIn payloads
  blockHash_eq hash payload hp := by
    simpa using List.find?_some hp
  blockNumber_eq hash payload hp := by
    rw [numberIn, hp]
    rfl
  number_parent hash payload hp := by
    rw [← h payload (List.mem_of_find?_eq_some hp), numberIn, hp]
    rfl

end BlockTree

end Podseq.Node
