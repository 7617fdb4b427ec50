import Db7.Lib.TSys
import Db7.Storage.UndoBuffer
import Mathlib.Data.List.Basic

/-!
# Transactions at the granularity of their atomic steps

`BeginTransaction`, `Commit` and the three write paths of `Table` run as
control states of their transaction, one atomic memory access or one latched
page access per step:

* `BeginTransaction` checks out its start time, then spins on the commit latch;
* `Commit` takes the commit latch, checks out its commit time, restamps its
  undo records one by one in creation order and releases the latch;
* `UpdateUndo` and `DeleteUndo` hold the page's data latch over a loop that
  loads the head of the version chain, tests it for a conflict and swaps the
  new record in; `DeleteUndoRaw` runs the same loop without the latch.

`Table::Insert` fills a slot that no other call can name yet and is one step.
-/

namespace Db7

open Lib Function

/-- The write paths of `Table` that append to an existing tuple's chain. -/
inductive WriteOp
  | update (chunk : DataChunk)
  | delete
  | deleteRaw
  deriving DecidableEq, Repr

/-- The program counter inside the compare-and-swap loop of a write. -/
inductive WritePc
  | load
  | check (head : Option RecPtr)
  | apply (head : Option RecPtr)
  | link (head : Option RecPtr)
  | exit (ok : Bool)
  deriving DecidableEq, Repr

/-- The control state of a transaction. -/
inductive Ctl
  | idle
  | spinning
  | active
  | writing (op : WriteOp) (slot : Slot) (rec : Nat) (pc : WritePc)
  | locked
  | restamping (commitTime : Nat) (next : Nat)
  | committed (commitTime : Nat)
  deriving DecidableEq, Repr

/-- `TransactionContext` with its control state and the results its writes
returned. -/
structure Txn where
  ctl : Ctl
  start : Nat
  finish : Nat
  undo : List UndoRecord
  returned : List (WriteOp × Slot × Bool)

/-- The shared state: timestamp counter, commit latch, contexts, version
chains, and the pages' row counts, rows, delete bits and data latches. -/
@[ext]
structure Db where
  time : Nat
  commitLatch : Nat
  txns : TxnId → Txn
  versions : Slot → List RecPtr
  schema : Nat → Schema
  count : Nat → Nat → Nat
  rows : Slot → Row
  deletedBit : Slot → Bool
  latch : Nat → Nat → Option TxnId

/-- What a scheduler may do next; `run t` is the next step of a call that `t`
is inside of. -/
inductive Action
  | begin (t : TxnId)
  | spin (t : TxnId)
  | insert (t : TxnId) (tbl pid : Nat) (chunk : DataChunk)
  | write (t : TxnId) (op : WriteOp) (slot : Slot)
  | commit (t : TxnId)
  | run (t : TxnId)

namespace Db

/-- The record behind a pointer. -/
def record (s : Db) (p : RecPtr) : Option UndoRecord := (s.txns p.owner).undo[p.idx]?

def setTxn (s : Db) (t : TxnId) (x : Txn) : Db := { s with txns := update s.txns t x }

/-- `HasConflict(txn, version_ptr)`. -/
def hasConflict (s : Db) (x : Txn) (head : Option RecPtr) : Bool :=
  match head.bind s.record with
  | none => false
  | some r => hasConflictTs r.timestamp x.finish x.start

/-! ## `TransactionManager` -/

/-- `BeginTransaction` up to the spin: the context with its two times. -/
def beginTransaction (s : Db) (t : TxnId) : Db :=
  let (start, time) := checkOutTimestamp s.time
  { s.setTxn t ⟨.spinning, start, finishTimeOf start, [], []⟩ with time := time }

/-- One test of `AdaptiveSpinLock::Try`; the call returns when it reads zero. -/
def tryLatch (s : Db) (t : TxnId) : Db :=
  if s.commitLatch > 0 then s else s.setTxn t { s.txns t with ctl := .active }

/-- `BeginTransaction` with nothing between its two steps. -/
def beginAlone (s : Db) (t : TxnId) : Db := (s.beginTransaction t).tryLatch t

/-- `AdaptiveSpinLock::Lock` at the start of `Commit`. -/
def lockLatch (s : Db) (t : TxnId) : Db :=
  { s.setTxn t { s.txns t with ctl := .locked } with commitLatch := u64 (s.commitLatch + 1) }

/-- `Commit` checks out its commit time. -/
def checkOutCommit (s : Db) (t : TxnId) : Db :=
  let (commit, time) := checkOutTimestamp s.time
  { s.setTxn t { s.txns t with ctl := .restamping commit 0 } with time := time }

/-- One record of `RestampVersions`, where the iterator stops at every record; `Db.stepThrough` goes
where the iterator does. -/
def restampOne (s : Db) (t : TxnId) (commit i : Nat) : Db :=
  s.setTxn t { s.txns t with
    undo := (s.txns t).undo.modify i fun r => r.setTimestamp commit
    ctl := .restamping commit (i + 1) }

/-- `AdaptiveSpinLock::Unlock` at the end of `Commit`. -/
def unlockLatch (s : Db) (t : TxnId) (commit : Nat) : Db :=
  { s.setTxn t { s.txns t with ctl := .committed commit } with
    commitLatch := u64Pred s.commitLatch }

/-! ## `Table` -/

/-- `Table::Insert` into the next free row of a page. -/
def insertTuple (s : Db) (t : TxnId) (tbl pid : Nat) (chunk : DataChunk) : Db :=
  let x := s.txns t
  let slot : Slot := ⟨tbl, pid, s.count tbl pid⟩
  { s.setTxn t { x with undo := x.undo ++ [.initializeInsert x.finish slot] } with
    count := update s.count tbl (update (s.count tbl) pid (s.count tbl pid + 1))
    rows := update s.rows slot (insertRow (s.schema tbl) chunk (s.rows slot))
    versions := update s.versions slot [⟨t, x.undo.length⟩] }

/-- The record a write prepares before its loop. -/
def newRecord (finish : Nat) (slot : Slot) : WriteOp → UndoRecord
  | .update chunk => .initializeUpdate finish slot chunk
  | .delete | .deleteRaw => .initializeDelete finish slot

/-- Does the write hold the page's data latch? -/
def latched : WriteOp → Bool
  | .update _ | .delete => true
  | .deleteRaw => false

/-- A write up to its loop: latch the page if the path does, create the
record. -/
def startWrite (s : Db) (t : TxnId) (op : WriteOp) (slot : Slot) : Db :=
  let x := s.txns t
  { s.setTxn t { x with
      undo := x.undo ++ [newRecord x.finish slot op]
      ctl := .writing op slot x.undo.length .load } with
    latch := if latched op then
        update s.latch slot.tbl (update (s.latch slot.tbl) slot.pid (some t))
      else s.latch }

/-- The test that makes a write give up: each path has its own. -/
def blocked (s : Db) (x : Txn) (slot : Slot) (head : Option RecPtr) : WriteOp → Bool
  | .update _ => head.isSome && (s.hasConflict x head || s.deletedBit slot)
  | .delete => s.hasConflict x head || s.deletedBit slot
  | .deleteRaw =>
      head.isSome && (s.hasConflict x head || (head.bind s.record).any UndoRecord.isDeleted)

def setPc (x : Txn) (op : WriteOp) (slot : Slot) (rec : Nat) (pc : WritePc) : Txn :=
  { x with ctl := .writing op slot rec pc }

/-- An update writes the page before it links its record, a delete links at
once. -/
def passed (head : Option RecPtr) : WriteOp → WritePc
  | .update _ => .apply head
  | .delete | .deleteRaw => .link head

/-- Test the loaded head; an invalidated record is left behind on failure. -/
def checkHead (s : Db) (t : TxnId) (op : WriteOp) (slot : Slot) (rec : Nat)
    (head : Option RecPtr) : Db :=
  let x := s.txns t
  if s.blocked x slot head op then
    s.setTxn t (setPc { x with undo := x.undo.modify rec UndoRecord.invalidate }
      op slot rec (.exit false))
  else s.setTxn t (setPc x op slot rec (passed head op))

/-- `ChunkUtils::UpdateSingle` on the page and the record's delta. -/
def applyUpdate (s : Db) (t : TxnId) (chunk : DataChunk) (slot : Slot) (rec : Nat)
    (head : Option RecPtr) : Db :=
  let x := s.txns t
  let (delta, row) := updateSingle (s.schema slot.tbl) chunk (s.rows slot)
  { s.setTxn t (setPc { x with undo := x.undo.modify rec fun r => { r with delta := delta } }
      (.update chunk) slot rec (.link head)) with
    rows := update s.rows slot row }

/-- `SetNext` and `CompareAndSwap`. -/
def link (s : Db) (t : TxnId) (op : WriteOp) (slot : Slot) (rec : Nat)
    (head : Option RecPtr) : Db :=
  if (s.versions slot).head? = head then
    { s.setTxn t (setPc (s.txns t) op slot rec (.exit true)) with
      versions := update s.versions slot (⟨t, rec⟩ :: s.versions slot) }
  else s.setTxn t (setPc (s.txns t) op slot rec .load)

/-- The end of a write: `Table::Delete` sets the page's delete bit, a latched
path releases the latch. -/
def finishWrite (s : Db) (t : TxnId) (op : WriteOp) (slot : Slot) (ok : Bool) : Db :=
  let x := s.txns t
  { s.setTxn t { x with ctl := .active, returned := (op, slot, ok) :: x.returned } with
    deletedBit := if op = .delete ∧ ok then update s.deletedBit slot true else s.deletedBit
    latch := if latched op then
        update s.latch slot.tbl (update (s.latch slot.tbl) slot.pid none)
      else s.latch }

/-- The next step of a write. -/
def runWrite (s : Db) (t : TxnId) (op : WriteOp) (slot : Slot) (rec : Nat) : WritePc → Option Db
  | .load =>
      some (s.setTxn t (setPc (s.txns t) op slot rec (.check (s.versions slot).head?)))
  | .check head => some (s.checkHead t op slot rec head)
  | .apply head =>
      match op with
      | .update chunk => some (s.applyUpdate t chunk slot rec head)
      | .delete | .deleteRaw => none
  | .link head => some (s.link t op slot rec head)
  | .exit ok => some (s.finishWrite t op slot ok)

/-- The next step of the call `t` is inside of. -/
def runTxn (s : Db) (t : TxnId) : Option Db :=
  match (s.txns t).ctl with
  | .locked => some (s.checkOutCommit t)
  | .restamping commit i =>
      if i < (s.txns t).undo.length then some (s.restampOne t commit i)
      else some (s.unlockLatch t commit)
  | .writing op slot rec pc => s.runWrite t op slot rec pc
  | .idle | .spinning | .active | .committed _ => none

def step (s : Db) : Action → Option Db
  | .begin t => if (s.txns t).ctl = .idle then some (s.beginTransaction t) else none
  | .spin t => if (s.txns t).ctl = .spinning then some (s.tryLatch t) else none
  | .insert t tbl pid chunk =>
      if (s.txns t).ctl = .active ∧ s.latch tbl pid = none then
        some (s.insertTuple t tbl pid chunk)
      else none
  | .write t op slot =>
      if (s.txns t).ctl = .active ∧ slot.idx < s.count slot.tbl slot.pid ∧
          (latched op → s.latch slot.tbl slot.pid = none) then
        some (s.startWrite t op slot)
      else none
  | .commit t => if (s.txns t).ctl = .active then some (s.lockLatch t) else none
  | .run t => s.runTxn t

/-- Before any transaction: any pages, no version chains. -/
def Init (s : Db) : Prop :=
  s.time = initialTxnTimestamp ∧ s.commitLatch = 0 ∧
  (∀ t, s.txns t = ⟨.idle, 0, 0, [], []⟩) ∧ (∀ x, s.versions x = []) ∧
  (∀ tbl pid, s.latch tbl pid = none)

end Db

/-- The transactions as a transition system. -/
def txnSystem : TSys Db Action := ⟨Db.Init, Db.step⟩

end Db7
