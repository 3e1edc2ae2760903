import Subzero.Cell

/-! Transactions and their storage. The database is a map from hashes to
transactions; a stored transaction always decodes. -/
namespace Subzero

inductive TxStatus where
  | pending
  | queried
  | accepted
  | rejected
  | removed
  deriving DecidableEq

structure Tx (H : Type) where
  parents : List H
  cell : Cell H
  status : TxStatus
  deriving DecidableEq

inductive StorageError where
  | invalidTx
  deriving DecidableEq

section
variable {H : Type} [DecidableEq H] [Blake3 H]

def Tx.new (parents : List H) (cell : Cell H) : Tx H := ⟨parents, cell, .pending⟩

/-- The hash of the inner cell; the parents are not part of it. -/
def Tx.hash (tx : Tx H) : H := tx.cell.hash

end

/-- `known_txs` -/
abbrev TxDb (H : Type) := HashMap H (Tx H)

namespace TxDb
variable {H : Type} [DecidableEq H] [Blake3 H]

def isKnownTx (db : TxDb H) (hash : H) : Bool := hash ∈ db

def insertTx (db : TxDb H) (tx : Tx H) : TxDb H := db.insert tx.hash tx

def getTx (db : TxDb H) (hash : H) : Except StorageError (Tx H) :=
  match db.lookup hash with
  | some tx => .ok tx
  | none => .error .invalidTx

/-- The checks of the stored status share their lookup. -/
def checkStatus (db : TxDb H) (hash : H) (test : TxStatus → Bool) : Except StorageError Bool :=
  match db.lookup hash with
  | some tx => .ok (test tx.status)
  | none => .error .invalidTx

def isAcceptedTx (db : TxDb H) (hash : H) : Except StorageError Bool :=
  db.checkStatus hash (· == .accepted)

def isRemovedTx (db : TxDb H) (hash : H) : Except StorageError Bool :=
  db.checkStatus hash (· == .removed)

def cannotBeAccepted (db : TxDb H) (hash : H) : Except StorageError Bool :=
  db.checkStatus hash fun status => status == .removed || status == .rejected

/-- A transaction that is not stored stays so. -/
def setStatus (db : TxDb H) (hash : H) (status : TxStatus) : Except StorageError (TxDb H) :=
  match db.lookup hash with
  | some tx => .ok (db.insert hash { tx with status := status })
  | none => .error .invalidTx

/-- The stored status, if there is one. -/
def status (db : TxDb H) (hash : H) : Option TxStatus := (db.lookup hash).map Tx.status

end TxDb

/-- `Result::unwrap_or(false)` -/
def unwrapOrFalse {ε : Type} : Except ε Bool → Bool
  | .ok b => b
  | .error _ => false

namespace TxDb
variable {H : Type} [DecidableEq H]

@[simp] theorem isAcceptedTx_iff (db : TxDb H) (hash : H) :
    unwrapOrFalse (db.isAcceptedTx hash) = true ↔ db.status hash = some .accepted := by
  unfold isAcceptedTx checkStatus status
  cases db.lookup hash <;> simp [unwrapOrFalse]

@[simp] theorem cannotBeAccepted_iff (db : TxDb H) (hash : H) :
    unwrapOrFalse (db.cannotBeAccepted hash) = true ↔
      db.status hash = some .removed ∨ db.status hash = some .rejected := by
  unfold cannotBeAccepted checkStatus status
  cases db.lookup hash <;> simp [unwrapOrFalse]

theorem setStatus_ok {db db' : TxDb H} {hash : H} {new : TxStatus}
    (h : db.setStatus hash new = .ok db') :
    ∃ tx, db.lookup hash = some tx ∧ db' = db.insert hash { tx with status := new } := by
  unfold setStatus at h
  split at h
  · rename_i tx stored
    cases h
    exact ⟨tx, stored, rfl⟩
  · cases h

theorem setStatus_lookup {db db' : TxDb H} {hash : H} {new : TxStatus}
    (h : db.setStatus hash new = .ok db') (k : H) :
    db'.lookup k = if k = hash then (db.lookup k).map fun tx => { tx with status := new }
      else db.lookup k := by
  obtain ⟨tx, stored, rfl⟩ := setStatus_ok h
  rw [HashMap.lookup_insert_ite]
  by_cases hk : k = hash
  · subst hk; simp [stored]
  · simp [hk]

end TxDb
end Subzero
