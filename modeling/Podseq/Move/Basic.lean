import Podseq.Lib.Fallible
import Podseq.Lib.FixedBytes

/-! # The Move side: transactions, tables, integers

A Move call either returns or aborts, and an aborted transaction has no effects. Calls are
therefore functions into `Except Abort`: an abort carries the module and the code of the
failed `assert!`, or names the framework failure behind it.
-/
namespace Podseq.Move
open Podseq.Lib

abbrev Address := Nat

abbrev ObjectId := Nat

/-- The modules of the package that abort with codes of their own. -/
inductive ModuleName
  | rotation | inbox | settlement | bridge
deriving DecidableEq, Repr

inductive Abort
  /-- An `assert!` or `abort` of the package. -/
  | code (module : ModuleName) (code : Nat)
  /-- Integer overflow or underflow. -/
  | arithmetic
  /-- A dynamic field, table or bag entry that does not exist was borrowed or removed. -/
  | fieldMissing
  /-- A dynamic field, table or bag entry was added twice. -/
  | fieldExists
  /-- An argument names an object that does not exist or that the sender does not own. -/
  | badInput
deriving DecidableEq, Repr

abbrev Tx (α : Type*) := Except Abort α

variable {κ ν : Type*}

/-! ## `u64` -/

/-- `a + b` on `u64`, which aborts on overflow. -/
def addU64 (a b : Nat) : Tx Nat := addUpTo u64Max .arithmetic a b

@[simp] theorem addU64_eq_ok {a b c : Nat} : addU64 a b = .ok c ↔ a + b ≤ u64Max ∧ c = a + b :=
  addUpTo_eq_ok

/-! ## Tables -/

/-- `sui::table::Table` (and a family of dynamic fields): a partial map. -/
abbrev Table (κ ν : Type*) := κ → Option ν

namespace Table

variable {t t' : Table κ ν} {k k' : κ} {v : ν}

def empty : Table κ ν := fun _ => none

def contains (t : Table κ ν) (k : κ) : Bool := (t k).isSome

/-- `table::add` aborts when the key is taken. -/
def add [DecidableEq κ] (t : Table κ ν) (k : κ) (v : ν) : Tx (Table κ ν) :=
  match t k with
  | some _ => .error .fieldExists
  | none => .ok (Function.update t k (some v))

/-- `table::remove` aborts when the key is absent. -/
def remove [DecidableEq κ] (t : Table κ ν) (k : κ) : Tx (Table κ ν × ν) :=
  match t k with
  | some v => .ok (Function.update t k none, v)
  | none => .error .fieldMissing

/-- `table::borrow` aborts when the key is absent. -/
def borrow (t : Table κ ν) (k : κ) : Tx ν :=
  match t k with
  | some v => .ok v
  | none => .error .fieldMissing

@[simp] theorem empty_apply : (empty : Table κ ν) k = none := rfl

@[simp] theorem add_eq_ok [DecidableEq κ] :
    t.add k v = .ok t' ↔ t k = none ∧ t' = Function.update t k (some v) := by
  unfold add; split <;> simp_all [eq_comm]

@[simp] theorem remove_eq_ok [DecidableEq κ] {r : Table κ ν × ν} :
    t.remove k = .ok r ↔ t k = some r.2 ∧ r.1 = Function.update t k none := by
  obtain ⟨t', v⟩ := r
  unfold remove
  split <;> simp_all [eq_comm, and_comm]

@[simp] theorem borrow_eq_ok : t.borrow k = .ok v ↔ t k = some v := by
  unfold borrow; split <;> simp_all

end Table

end Podseq.Move
