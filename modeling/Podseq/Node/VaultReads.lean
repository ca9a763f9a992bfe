import Podseq.Node.BurnsServed
import Podseq.Node.LedgerReads

/-! # What the relayer reads of the vault

The vault is one object, and each deposit is one more, in the table of deposits. The relayer takes
the id of the table and the count of deposits from the first, and then asks for the deposits one
after the other, while the vault goes on. A deposit that was counted is there, and stays as it is.
-/
namespace Podseq.Node
open Podseq.Lib Podseq.Move Podseq.Solidity

namespace VaultReads
open LedgerObjects LedgerReads

/-! ## The reads -/

/-- `BridgeError`, as far as reads return it. -/
inductive BridgeError
  | settlement (cause : SettlementError)
  /-- `vault BCS: …`. -/
  | parseVault
  /-- `field BCS: …`. -/
  | parseField
  /-- `recipient_l2 must be 20 bytes, got {length}`. -/
  | recipientLength (length : Nat)
deriving DecidableEq

/-- The ids of the vault and of its bag and its tables. -/
structure VaultIds extends ObjectIds where
  vault : FixedBytes 32
  reserves : FixedBytes 32
  deposits : FixedBytes 32
  processedWithdrawals : FixedBytes 32

structure VaultStatus where
  depositNonce : Nat
  withdrawNonce : Nat
  depositsTableUid : FixedBytes 32
deriving DecidableEq

/-- `BagBcs` and `TableBcs`: the id and the size. -/
def tableBcs : Bcs (FixedBytes 32 × Nat) := .pair (.fixed 32) .u64

/-- `VaultBcs`: the id, both nonces, the bag of reserves and the two tables. -/
def vaultBcs : Bcs (FixedBytes 32 × Nat × Nat × (FixedBytes 32 × Nat) × (FixedBytes 32 × Nat) ×
    FixedBytes 32 × Nat) :=
  .pair (.fixed 32) (.pair .u64 (.pair .u64 (.pair tableBcs (.pair tableBcs tableBcs))))

/-- `Field<u64, DepositRecord>`. -/
def depositFieldBcs : Bcs (FixedBytes 32 × Nat × Nat × Bytes × Bytes) :=
  .pair (.fixed 32) (.pair .u64 (.pair .u64 (.pair .bytes .bytes)))

def parseVaultStatus (contents : Bytes) : Except BridgeError VaultStatus :=
  match vaultBcs.ofBytes contents with
  | some (_, depositNonce, withdrawNonce, _, deposits, _) =>
    .ok ⟨depositNonce, withdrawNonce, deposits.1⟩
  | none => .error .parseVault

def parseFieldDeposit (field : Bytes) : Except BridgeError DepositRecord :=
  match depositFieldBcs.ofBytes field with
  | some (_, _, amount, recipientL2, coinType) =>
    if recipientL2.length = 20 then .ok ⟨amount, recipientL2, coinType⟩
    else .error (.recipientLength recipientL2.length)
  | none => .error .parseField

variable (get : FixedBytes 32 → ObjectReply) (ids : VaultIds)

def vaultStatus : Except BridgeError VaultStatus :=
  match objectContents get ids.vault "vault" with
  | .ok contents => parseVaultStatus contents
  | .error e => .error (.settlement e)

def depositAt (table : FixedBytes 32) (nonce : Nat) :
    Except BridgeError (Option DepositRecord) :=
  match fieldContents get ids.toObjectIds table nonce with
  | .error e => .error (.settlement e)
  | .ok none => .ok none
  | .ok (some field) => (parseFieldDeposit field).map some

/-! ## The objects of a vault -/

inductive VaultKey
  | vault
  | deposit (nonce : Nat)
deriving DecidableEq

def VaultKey.Fits : VaultKey → Prop
  | .vault => True
  | .deposit nonce => nonce ≤ u64Max

def VaultIds.object (ids : VaultIds) : VaultKey → FixedBytes 32
  | .vault => ids.vault
  | .deposit nonce => ids.childId ids.deposits .u64 (Bcs.u64.write nonce)

def VaultIds.Distinct (ids : VaultIds) : Prop :=
  ∀ a b : VaultKey, a.Fits → b.Fits → ids.object a = ids.object b → a = b

/-- The contents of an object, if there is one; `coins` is how many coins the bag holds. -/
def stored (ids : VaultIds) (vault : Vault) (coins : UInt64) (key : VaultKey) : Option Bytes :=
  let id := ids.object key
  match key with
  | .vault => some (vaultBcs.write (id, vault.depositNonce, vault.withdrawNonce,
      (ids.reserves, coins.toNat), (ids.deposits, vault.depositNonce),
      ids.processedWithdrawals, vault.withdrawNonce))
  | .deposit nonce => (vault.deposits nonce).map fun record =>
      depositFieldBcs.write (id, nonce, record.amount, record.recipientL2, record.coinType)

def objects (vault : Vault) : List VaultKey :=
  .vault :: (List.range vault.depositNonce).map .deposit

/-- The log of deposits is dense, and what it holds can be written. -/
structure Sized (vault : Vault) : Prop extends Vault.Filed vault where
  withdrawNonce : vault.withdrawNonce ≤ u64Max
  named : ∀ {n record}, vault.deposits n = some record →
    record.coinType.length ≤ Bcs.maxSequenceLength

variable {ids} {vault : Vault} {coins : UInt64} {key : VaultKey} {bytes : Bytes} {nonce : Nat}

theorem mem_objects (hs : Sized vault) (h : stored ids vault coins key = some bytes) :
    key ∈ objects vault := by
  cases key with
  | vault => exact List.mem_cons_self
  | deposit nonce =>
    obtain ⟨record, hrecord, -⟩ := Option.map_eq_some_iff.1 h
    have hlt : nonce < vault.depositNonce := (hs.dense nonce).1 (by simp [hrecord])
    exact List.mem_cons_of_mem _ (List.mem_map_of_mem (List.mem_range.2 hlt))

theorem fits_of_mem (hs : Sized vault) (h : key ∈ objects vault) : key.Fits := by
  have hbounded := hs.bounded
  simp only [objects, List.mem_cons, List.mem_map, List.mem_range] at h
  obtain rfl | ⟨nonce, hlt, rfl⟩ := h
  · trivial
  · exact (by omega : nonce ≤ u64Max)

theorem fits_of_stored (hs : Sized vault) (h : stored ids vault coins key = some bytes) :
    key.Fits := fits_of_mem hs (mem_objects hs h)

section
variable {get : FixedBytes 32 → ObjectReply}
  (hget : Serves get ids.object (stored ids vault coins)) (hd : ids.Distinct) (hs : Sized vault)
include hget hd hs

/-- The status is that of the vault. -/
theorem vaultStatus_eq :
    vaultStatus get ids = .ok ⟨vault.depositNonce, vault.withdrawNonce, ids.deposits⟩ := by
  have hreply := hget.get_eq hd (fits_of_stored hs) .vault trivial
  have hdeposit := lt_of_le_u64Max hs.bounded
  have hwithdraw := lt_of_le_u64Max hs.withdrawNonce
  have hread : vaultBcs.ofBytes (vaultBcs.write (ids.vault, vault.depositNonce,
      vault.withdrawNonce, (ids.reserves, coins.toNat), (ids.deposits, vault.depositNonce),
      ids.processedWithdrawals, vault.withdrawNonce)) = _ :=
    vaultBcs.ofBytes_write ⟨trivial, hdeposit, hwithdraw, ⟨trivial, coins.toNat_lt⟩,
      ⟨trivial, hdeposit⟩, trivial, hwithdraw⟩
  simp only [vaultStatus, objectContents, show get ids.vault = _ from hreply]
  simp only [stored, VaultIds.object, parseVaultStatus, hread]

/-- The deposit read for a nonce is the one that is filed under it. -/
theorem depositAt_eq (hnonce : nonce ≤ u64Max) :
    depositAt get ids ids.deposits nonce = .ok (vault.deposits nonce) := by
  have hreply := hget.get_eq hd (fits_of_stored hs) (.deposit nonce) hnonce
  simp only [depositAt, fieldContents,
    show get (ids.childId ids.deposits .u64 (Bcs.u64.write nonce)) = _ from hreply]
  cases hrecord : vault.deposits nonce with
  | none => simp only [stored, hrecord, Option.map_none]
  | some record =>
    have hlength := hs.recipient hrecord
    have hread : depositFieldBcs.ofBytes (depositFieldBcs.write (ids.object (.deposit nonce),
        nonce, record.amount, record.recipientL2, record.coinType)) = _ :=
      depositFieldBcs.ofBytes_write ⟨trivial, lt_of_le_u64Max hnonce,
        lt_of_le_u64Max (hs.amount hrecord).2, bytes_fits (hlength.le.trans (by decide)),
        bytes_fits (hs.named hrecord)⟩
    simp only [stored, hrecord, Option.map_some, parseFieldDeposit, hread, hlength, if_true]
    rfl

end

/-! ## In every run -/

section
open BridgeWorld
variable {types : CoinTypeSyntax} {R : EvmAddress} {w w' : BridgeWorld} {as : List Action}

/-- A type name is no longer than BCS counts. -/
def ShortNames (types : CoinTypeSyntax) : Prop :=
  ∀ T, types.isName T → T.length ≤ Bcs.maxSequenceLength

theorem doWithdraw_withdrawNonce {vault' : Vault} {T : CoinType} {recipient : Move.Address}
    {amount l2Nonce : Nat} {moved : Bool} (hle : vault.withdrawNonce ≤ u64Max)
    (h : vault.doWithdraw T recipient amount l2Nonce = .ok (vault', moved)) :
    vault'.withdrawNonce ≤ u64Max := by
  simp only [Vault.doWithdraw] at h
  split at h
  · cases h
    exact hle
  · simp only [bind_eq_ok, Table.add_eq_ok, require_eq_ok, exists_const] at h
    obtain ⟨-, ⟨-, rfl⟩, -, h⟩ := h
    split at h
    · cases h
    · simp only [bind_eq_ok, require_eq_ok, exists_const, addU64_eq_ok, pure_eq_ok] at h
      obtain ⟨-, nonce, ⟨hnonce, rfl⟩, heq⟩ := h
      cases heq
      exact hnonce

theorem reachable_sized (hshort : ShortNames types)
    (h : Reachable (Start R) (enabled (exec types R)) w) : Sized w.vault := by
  have hbase := reachable_base h
  refine ⟨hbase.filed, ?_, fun hrecord => hshort _ (hbase.named hrecord)⟩
  refine h.inv_of (I := fun w => w.vault.withdrawNonce ≤ u64Max) (J := fun w => Base types R w)
    (fun _ => reachable_base) ?_ fun w a w' hw _ hle hs => ?_
  · intro w hw
    obtain ⟨-, id, predeploy, rfl⟩ := hw
    exact Nat.zero_le _
  · obtain ⟨hvault, -⟩ | ⟨T, amount, recipientL2, -, hd, -, -⟩ |
      ⟨_, _, burn, _, _, T, _, moved, -, -, -, -, hd, -, -⟩ := vault_cases hw (exec_effect hs)
    · rw [hvault]
      exact hle
    · obtain ⟨-, -, -, -, -, hvault⟩ := Vault.deposit_cases hd
      rw [hvault]
      exact hle
    · exact doWithdraw_withdrawNonce hle hd

/-- A deposit stays filed as it is. -/
theorem deposits_run (hw : Reachable (Start R) (enabled (exec types R)) w)
    (h : Run (enabled (exec types R)) w as w') {n : Nat} {record : DepositRecord}
    (hrecord : w.vault.deposits n = some record) : w'.vault.deposits n = some record := by
  refine (h.inv (I := fun u => Base types R u ∧ u.vault.deposits n = some record)
    (fun u a u' hu hs => ?_) ⟨reachable_base hw, hrecord⟩).2
  have heffect := exec_effect hs
  exact ⟨hu.1.effect heffect, (grows_effect hu.1 heffect).deposits hu.2⟩

/-- **A deposit that was counted can be read.** Whatever the bridge has done, the status read is
that of the vault; and under the table that it names, at any later time, each nonce that it counted
is read as the deposit that was filed under it then, and every other nonce as what is filed by
now. -/
theorem deposits_read {get get' : FixedBytes 32 → ObjectReply} {coins coins' : UInt64}
    (hget : Serves get ids.object (stored ids w.vault coins))
    (hget' : Serves get' ids.object (stored ids w'.vault coins')) (hd : ids.Distinct)
    (hshort : ShortNames types) (h : Reachable (Start R) (enabled (exec types R)) w)
    (hrun : Run (enabled (exec types R)) w as w') :
    ∃ status, vaultStatus get ids = .ok status ∧
      status.depositNonce = w.vault.depositNonce ∧
      status.withdrawNonce = w.vault.withdrawNonce ∧
      (∀ nonce < status.depositNonce, ∃ record, w.vault.deposits nonce = some record ∧
        depositAt get' ids status.depositsTableUid nonce = .ok (some record)) ∧
      ∀ nonce ≤ u64Max,
        depositAt get' ids status.depositsTableUid nonce = .ok (w'.vault.deposits nonce) := by
  have hs := reachable_sized hshort h
  have hs' := reachable_sized hshort (h.extend hrun)
  refine ⟨_, vaultStatus_eq hget hd hs, rfl, rfl, fun nonce hlt => ?_, fun nonce hle =>
    depositAt_eq hget' hd hs' hle⟩
  have hfiled : w.vault.deposits nonce ≠ none := (hs.dense nonce).2 hlt
  obtain ⟨record, hrecord⟩ := Option.ne_none_iff_exists'.1 hfiled
  have hle : nonce ≤ u64Max := hlt.le.trans hs.bounded
  refine ⟨record, hrecord, ?_⟩
  rw [← deposits_run h hrun hrecord]
  exact depositAt_eq hget' hd hs' hle

end

/-! ## A run -/

def vaultNode (ids : VaultIds) (vault : Vault) (coins : UInt64) : FixedBytes 32 → ObjectReply :=
  service ids.object (objects vault) (stored ids vault coins)

theorem vaultNode_serves (hs : Sized vault) :
    Serves (vaultNode ids vault coins) ids.object (stored ids vault coins) :=
  service_serves fun _ _ => mem_objects hs

def plainVaultIds : VaultIds :=
  { plainIds with
    vault := B256.repeated 6
    reserves := B256.repeated 7
    deposits := B256.repeated 8
    processedWithdrawals := B256.repeated 9 }

theorem plainVaultIds_distinct : plainVaultIds.Distinct := by
  intro a b ha hb h
  have hval := congrArg (fun id => id.val) h
  cases a with
  | vault =>
    cases b with
    | vault => rfl
    | deposit n =>
      have hhead := congrArg List.head? hval
      cases hhead
  | deposit n =>
    cases b with
    | vault =>
      have hhead := congrArg List.head? hval
      cases hhead
    | deposit m =>
      have hbytes : leBytes 8 n ++ List.replicate 22 0 = leBytes 8 m ++ List.replicate 22 0 :=
        (List.cons.inj (List.cons.inj hval).2).2
      rw [leBytes_injective (lt_of_le_u64Max ha) (lt_of_le_u64Max hb)
        (List.append_cancel_right hbytes)]

open BridgeWorld in
/-- The deposit of the first run is counted, and read when its recipient has burnt the tokens. -/
theorem deposits_read_burnt : ∃ status,
    vaultStatus (vaultNode plainVaultIds (bridgeAfter (burnFirst.take 5)).vault 1)
      plainVaultIds = .ok status ∧
    depositAt (vaultNode plainVaultIds (bridgeAfter burnFirst).vault 1) plainVaultIds
      status.depositsTableUid 0 = .ok (some ⟨5, (EvmAddress.repeated 7).val, suiName⟩) := by
  have hshort : ShortNames (.single suiName suiShort) := by
    intro T hname
    obtain rfl : T = suiName := of_decide_eq_true hname
    decide
  have hstart : Start (.repeated 1) (fresh (.repeated 1) 0 (.repeated 9)) :=
    ⟨by decide, 0, .repeated 9, rfl⟩
  have hbefore : Run (enabled (exec (.single suiName suiShort) (.repeated 1)))
      (fresh (.repeated 1) 0 (.repeated 9)) (burnFirst.take 5)
      (bridgeAfter (burnFirst.take 5)) := run_of_execAll rfl
  have hrun : Run (enabled (exec (.single suiName suiShort) (.repeated 1)))
      (bridgeAfter (burnFirst.take 5)) (burnFirst.drop 5) (bridgeAfter burnFirst) :=
    run_of_execAll rfl
  have hreach : Reachable (Start (.repeated 1))
      (enabled (exec (.single suiName suiShort) (.repeated 1)))
      (bridgeAfter (burnFirst.take 5)) := ⟨_, _, hstart, hbefore⟩
  have hserves := @vaultNode_serves plainVaultIds _ 1 (reachable_sized hshort hreach)
  have hserves' := @vaultNode_serves plainVaultIds _ 1
    (reachable_sized hshort (hreach.extend hrun))
  obtain ⟨status, hstatus, -, -, -, hread⟩ :=
    deposits_read hserves hserves' plainVaultIds_distinct hshort hreach hrun
  exact ⟨status, hstatus, hread 0 (by decide)⟩

end VaultReads

end Podseq.Node
