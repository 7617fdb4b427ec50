import Db7.Access.Heads
import Db7.Catalog.Rows
import Db7.Lib.Multimap

/-!
# Is a tuple there?

The catalog judges a tuple by the head of its version chain alone: it is gone when
the head is a delete, and what a transaction may do about it depends on whether the
head conflicts with it. These are the tests of `TransactionContext`, and what a
delete does to the heads (`newest_deleteUndoRaw`).
-/

namespace Db7

open Function

/-- `TupleId`; the `u64` has the page in its high half. -/
structure TupleId where
  pageId : Nat
  idx : Nat
  deriving DecidableEq, Repr

instance : LinearOrder TupleId :=
  LinearOrder.lift' (fun tid => toLex (tid.pageId, tid.idx)) fun a b h => by
    cases a
    cases b
    simpa using h

/-- `INVALID_TID`. -/
def invalidTid : TupleId := ⟨0, 0⟩

namespace TupleId

/-- `TupleId(u64)`. -/
def ofValue (value : Nat) : TupleId := ⟨value / 2 ^ 32 % 2 ^ 32, value % 2 ^ 32⟩

/-- `GetValue`. -/
def value (tid : TupleId) : Nat := tid.pageId * 2 ^ 32 + tid.idx

/-- The tuple with this id in a table. -/
def slot (tid : TupleId) (tblId : Nat) : Slot := ⟨tblId, tid.pageId, tid.idx⟩

theorem slot_inj {a b : TupleId} {m n : Nat} : a.slot m = b.slot n ↔ m = n ∧ a = b := by
  cases a
  cases b
  simp [slot]

end TupleId

namespace Db

/-! ## `TransactionContext` -/

/-- `GetDelta` of the version manager. -/
def getDelta (s : Db) (tid : TupleId) (tblId : Nat) : Option UndoRecord := s.newest (tid.slot tblId)

/-- `HasUniqueConflict`. -/
def hasUniqueConflict (s : Db) (t : TxnId) (tid : TupleId) (tblId : Nat) : Bool :=
  match s.getDelta tid tblId with
  | none => true
  | some undo => !(undo.isDeleted && !s.conflicts t undo)

/-- `GetTidForModify`. -/
def getTidForModify (s : Db) (t : TxnId) (tblId : Nat) : List TupleId → Except String TupleId
  | [] => .ok invalidTid
  | tid :: tids =>
      match s.getDelta tid tblId with
      | none => .ok tid
      | some undo =>
          if s.conflicts t undo then .error "Conflicting version"
          else if !undo.isDeleted then .ok tid
          else getTidForModify s t tblId tids

/-- The tuple is not deleted, whoever wrote its newest version. -/
def isLive (s : Db) (tid : TupleId) (tblId : Nat) : Bool :=
  (s.getDelta tid tblId).all fun undo => !undo.isDeleted

/-- `GetTidExists`. -/
def getTidExists (s : Db) (tids : List TupleId) (tblId : Nat) : Bool :=
  tids.any fun tid => s.isLive tid tblId

/-- `Table::DeleteUndoRaw`, with its result. -/
def deleteUndoRaw (s : Db) (t : TxnId) (tid : TupleId) (tblId : Nat) : Bool × Db :=
  let slot := tid.slot tblId
  (!s.blocked (s.txns t) slot (s.versions slot).head? .deleteRaw, s.tableWrite t .deleteRaw slot)

section Delete

variable {s : Db} {t : TxnId} {tbl : Nat}

/-- A delete that succeeds becomes the head; one that fails changes no head. -/
theorem newest_deleteUndoRaw {tid : TupleId} (hv : s.ChainsValid) (x : Slot) :
    (s.deleteUndoRaw t tid tbl).2.newest x =
      if x = tid.slot tbl ∧ (s.deleteUndoRaw t tid tbl).1 = true then
        some (.initializeDelete (s.txns t).finish x) else s.newest x := by
  by_cases hx : x = tid.slot tbl
  · subst hx
    simp only [deleteUndoRaw, true_and, Bool.not_eq_true']
    cases hb : s.blocked (s.txns t) (tid.slot tbl) (s.versions (tid.slot tbl)).head? .deleteRaw with
    | true =>
        have hw := written_tableWrite s t .deleteRaw (tid.slot tbl)
        refine newest_of_append hv ?_ hw.undo_append
        rw [hw.versions, hb]
        rfl
    | false =>
        have hrecord := record_tableWrite hb
        rw [if_pos rfl]
        show ((s.tableWrite t .deleteRaw (tid.slot tbl)).versions (tid.slot tbl)).head?.bind _ = _
        have hhead : ((s.tableWrite t .deleteRaw (tid.slot tbl)).versions (tid.slot tbl)).head? =
            some ⟨t, (s.txns t).undo.length⟩ := by
          simp [tableWrite, hb]
        rw [hhead, Option.bind_some, hrecord]
        rfl
  · rw [if_neg fun h => hx h.1]
    exact (written_tableWrite s t .deleteRaw (tid.slot tbl)).newest_of_ne hv hx

end Delete

end Db

end Db7
