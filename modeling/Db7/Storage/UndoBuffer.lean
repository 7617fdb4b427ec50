import Db7.Access.DataChunk
import Db7.Txn.Timestamp

/-!
# Undo records and version chains

A transaction's undo buffer is the list of its records in creation order, and
a record is named by its owner and its index there. The `next_` pointer of a
record is set before the record is linked and never changes afterwards, so the
chain hanging off a `VersionPtr` is the list of the record names reached from
its head.
-/

namespace Db7

/-- Names a `TransactionContext`. -/
abbrev TxnId := Nat

/-- The table, page and index of a tuple: `t_id_`, `p_id_`, `idx_`. -/
structure Slot where
  tbl : Nat
  pid : Nat
  idx : Nat
  deriving DecidableEq, Repr

/-- `DeltaRecordType`. -/
inductive DeltaRecordType
  | update | insert | delete | invalid
  deriving DecidableEq, Repr

/-- `storage::UndoRecord` without its link; `delta` is the before-image of an
update and is empty for the other types. -/
structure UndoRecord where
  type : DeltaRecordType
  timestamp : Nat
  slot : Slot
  delta : DataChunk
  deriving DecidableEq, Repr

/-- A record of the undo buffer of `owner`. -/
structure RecPtr where
  owner : TxnId
  idx : Nat
  deriving DecidableEq, Repr

namespace UndoRecord

/-- `InitializeInsert`. -/
def initializeInsert (timestamp : Nat) (slot : Slot) : UndoRecord :=
  ⟨.insert, timestamp, slot, []⟩

/-- `InitializeDelete`. -/
def initializeDelete (timestamp : Nat) (slot : Slot) : UndoRecord :=
  ⟨.delete, timestamp, slot, []⟩

/-- `InitializeUpdate`: the chunk's header is copied, the fields are filled in
later. -/
def initializeUpdate (timestamp : Nat) (slot : Slot) (chunk : DataChunk) : UndoRecord :=
  ⟨.update, timestamp, slot, chunk.map fun f => (f.1, [])⟩

/-- `IsDeleted`. -/
def isDeleted (r : UndoRecord) : Bool := r.type = .delete

/-- `Invalidate`. -/
def invalidate (r : UndoRecord) : UndoRecord := { r with type := .invalid }

/-- `SetTimestamp`. -/
def setTimestamp (r : UndoRecord) (time : Nat) : UndoRecord := { r with timestamp := time }

@[simp] theorem invalidate_timestamp (r : UndoRecord) :
    r.invalidate.timestamp = r.timestamp := rfl

@[simp] theorem setTimestamp_timestamp (r : UndoRecord) (time : Nat) :
    (r.setTimestamp time).timestamp = time := rfl

@[simp] theorem initializeInsert_timestamp (ts : Nat) (slot : Slot) :
    (initializeInsert ts slot).timestamp = ts := rfl

@[simp] theorem initializeDelete_timestamp (ts : Nat) (slot : Slot) :
    (initializeDelete ts slot).timestamp = ts := rfl

@[simp] theorem initializeUpdate_timestamp (ts : Nat) (slot : Slot) (chunk : DataChunk) :
    (initializeUpdate ts slot chunk).timestamp = ts := rfl

end UndoRecord

end Db7
