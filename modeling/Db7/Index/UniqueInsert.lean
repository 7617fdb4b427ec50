import Db7.Catalog.Liveness
import Db7.Index.BTree
import Db7.Index.NodePins
import Db7.Txn.UpdateLoop

/-!
# Unique inserts beside the transactions

`InsertUnique` of an index on a table, by any number of transactions that insert and
delete the tuples it names. A transaction belongs to one thread: it is inside a call of
the index, or takes a step of `Db`. Steps of the index are:

* the wait for the write latch of a leaf, with what follows on it: `GoRightLeaf` lets go
  of a leaf that has split, otherwise the latch stays (`goRight`, `crab`);
* one round of the loop of `CheckUnique`: the read of the version pointer (`scan`) and
  `HasUniqueConflict` about the version behind it (`judge`);
* `InsertInternalUnique` on the leaves that the call has latched (`insert`), and the
  release of one latch of `FreePages` (`free`).

Of the inner levels there is the leaf that the descent ends at: some leaf at or left of
the one that covers the columns with the id 0.
-/

namespace Db7

open Lib Function KeyNormEncoder

/-- `HasUniqueConflict` about the version that `GetDelta` has returned. -/
def Db.uniqueConflict (s : Db) (t : TxnId) (undo : Option RecPtr) : Bool :=
  match undo.bind s.record with
  | none => true
  | some undo => !(undo.isDeleted && !s.conflicts t undo)

/-- With nothing between the two reads it is `HasUniqueConflict`. -/
theorem Db.hasUniqueConflict_eq (s : Db) (t : TxnId) (tid : TupleId) (tblId : Nat) :
    s.hasUniqueConflict t tid tblId = s.uniqueConflict t (s.versions (tid.slot tblId)).head? := rfl

/-- Where a call of `InsertUnique` is; `visited` are the leaves that it has latched. -/
inductive UniquePc
  | goRight (pid : Nat)
  | crab (pid : Nat) (visited : List Nat) (insertPage : Option Nat)
  | scan (pid : Nat) (visited : List Nat) (insertPage : Option Nat) (idx : Nat)
  | judge (pid : Nat) (visited : List Nat) (insertPage : Option Nat) (idx : Nat)
    (undo : Option RecPtr)
  | insert (insertPage : Nat) (visited : List Nat)
  | free (visited : List Nat) (success : Bool)
  deriving DecidableEq, Repr

/-- A call of `InsertUnique`, with the encoded columns. -/
structure UniqueCall where
  columns : Key
  tid : Nat
  pc : UniquePc
  deriving DecidableEq, Repr

namespace UniqueCall

/-- The key of the descent and of `GoRightLeaf`. -/
def descentKey (c : UniqueCall) : Key := buildKey c.columns 0

/-- The key once the id is filled in. -/
def key (c : UniqueCall) : Key := buildKey c.columns c.tid

end UniqueCall

/-- The leaves of the index, a B-link tree of one level whose root stays the first leaf,
their write latches, and the transactions on the table. `pending` are the tuples from
`Table::Insert` that have not been given to `InsertUnique`. -/
structure UniqueIndex where
  heapTblId : Nat
  db : Db
  leaves : BTreeIndex
  latch : Nat → Option TxnId
  pending : TxnId → List Nat
  calls : TxnId → Option UniqueCall

/-- What a scheduler may do next; the descent of a call ends at `start`. -/
inductive UniqueAction
  | table (a : Action)
  | insertUnique (t : TxnId) (columns : Key) (tid start : Nat)
  | run (t : TxnId)

namespace UniqueIndex

open BtreeVarlenLayoutLeaf
open Layout (leaf)

def goto (s : UniqueIndex) (t : TxnId) (c : UniqueCall) (pc : UniquePc) : UniqueIndex :=
  { s with calls := update s.calls t (some { c with pc := pc }) }

/-- `Lock<Write>`. -/
def lock (s : UniqueIndex) (t : TxnId) (pid : Nat) : UniqueIndex :=
  { s with latch := update s.latch pid (some t) }

/-- `ReleaseNode<Write>`. -/
def releaseNode (s : UniqueIndex) (pid : Nat) : UniqueIndex :=
  { s with latch := update s.latch pid none }

/-- `GoRightLeaf`: one leaf. At its end `CheckUnique` looks for its start position. -/
def goRightStep (s : UniqueIndex) (t : TxnId) (c : UniqueCall) (pid : Nat) :
    Except Fault UniqueIndex := do
  let pg ← s.leaves.getNode pid
  if hasSplit pg c.descentKey then .ok (s.goto t c (.goRight pg.rlink))
  else .ok ((s.lock t pid).goto t c (.scan pid [pid] none (findStartPosition pg c.key)))

/-- The leaf to the right is latched too. -/
def crabStep (s : UniqueIndex) (t : TxnId) (c : UniqueCall) (pid : Nat) (visited : List Nat)
    (insertPage : Option Nat) : Except Fault UniqueIndex := do
  let _ ← s.leaves.getNode pid
  .ok ((s.lock t pid).goto t c (.scan pid (visited ++ [pid]) insertPage 0))

/-- `CheckUnique` at slot `idx`, and what `InsertUnique` does at its end. Without a page
to insert into, `InsertInternalUnique` reads through a null pointer. -/
def scanStep (s : UniqueIndex) (t : TxnId) (c : UniqueCall) (pid : Nat) (visited : List Nat)
    (insertPage : Option Nat) (idx : Nat) : Except Fault UniqueIndex := do
  let pg ← s.leaves.getNode pid
  let cur := leaf.slotKey pg (pg.slot idx)
  if idx < pg.count ∧ cmpPrefix cur c.key = 0 then
    let undo := (s.db.versions ((TupleId.ofValue (result cur)).slot s.heapTblId)).head?
    .ok (s.goto t c (.judge pid visited insertPage idx undo))
  else
    let insertPage := if insertPage = none ∧ ¬ hasSplit pg c.key then some pid else insertPage
    if highPrefixCmp pg c.key then .ok (s.goto t c (.crab pg.rlink visited insertPage))
    else
      match insertPage with
      | some page => .ok (s.goto t c (.insert page visited))
      | none => .error .overrun

/-- `HasUniqueConflict` about the tuple in slot `idx`. -/
def judgeStep (s : UniqueIndex) (t : TxnId) (c : UniqueCall) (pid : Nat) (visited : List Nat)
    (insertPage : Option Nat) (idx : Nat) (undo : Option RecPtr) : UniqueIndex :=
  if s.db.uniqueConflict t undo then s.goto t c (.free visited false)
  else s.goto t c (.scan pid visited insertPage (idx + 1))

/-- `InsertInternalUnique` up to `FreePages`. -/
def insertStep (s : UniqueIndex) (t : TxnId) (c : UniqueCall) (page : Nat) (visited : List Nat) :
    Except Fault UniqueIndex := do
  let pg ← s.leaves.getNode page
  if hasSpace pg c.key then do
    let pg ← insert pg c.key
    .ok ({ s with leaves := s.leaves.setPage page pg }.goto t c (.free visited true))
  else do
    let (leaves, newPid) ← s.leaves.reserveNode
    let (left, right, _) ← split pg (.initHeader 0 newPid) newPid c.key
    .ok ({ s with leaves := (leaves.setPage page left).setPage newPid right }.goto t c
      (.free visited true))

/-- One round of `FreePages`; after the last one the call returns. -/
def freeStep (s : UniqueIndex) (t : TxnId) (c : UniqueCall) (success : Bool) :
    List Nat → UniqueIndex
  | [] => { s with calls := update s.calls t none }
  | pid :: visited => (s.releaseNode pid).goto t c (.free visited success)

/-- The next step of a call. A leaf that is latched is waited for. -/
def runCall (s : UniqueIndex) (t : TxnId) (c : UniqueCall) : Except Fault UniqueIndex :=
  match c.pc with
  | .goRight pid =>
      if s.latch pid = none then s.goRightStep t c pid
        else .error (.assertion "waits for the latch")
  | .crab pid visited insertPage =>
      if s.latch pid = none then s.crabStep t c pid visited insertPage
      else .error (.assertion "waits for the latch")
  | .scan pid visited insertPage idx => s.scanStep t c pid visited insertPage idx
  | .judge pid visited insertPage idx undo => .ok (s.judgeStep t c pid visited insertPage idx undo)
  | .insert page visited => s.insertStep t c page visited
  | .free visited success => .ok (s.freeStep t c success visited)

/-- The leaves from `pid` to the one that covers the key. -/
def leavesUpTo (s : BTreeIndex) (key : Key) : Nat → Nat → List Nat
  | 0, _ => []
  | fuel + 1, pid =>
      match s.pages pid with
      | none => []
      | some pg => if hasSplit pg key then pid :: leavesUpTo s key fuel pg.rlink else [pid]

/-- The page id and the row number of a tuple are a `u32` each. -/
def fits (s : UniqueIndex) : Action → Bool
  | .insert _ tbl pid _ => decide (pid < 2 ^ 32) && decide (s.db.count tbl pid < 2 ^ 32)
  | _ => true

/-- `Table::Insert` returns the new tuple. -/
def handOut (s : UniqueIndex) : Action → TxnId → List Nat
  | .insert t tbl pid _ =>
      if tbl = s.heapTblId then
        update s.pending t (TupleId.value ⟨pid, s.db.count tbl pid⟩ :: s.pending t)
      else s.pending
  | _ => s.pending

def step (s : UniqueIndex) : UniqueAction → Option UniqueIndex
  | .table a =>
      if (s.calls a.txn).isNone && s.fits a then
        (s.db.step a).map fun db => { s with db := db, pending := s.handOut a }
      else none
  | .insertUnique t columns tid start =>
      if (s.db.txns t).ctl = .active ∧ (s.calls t).isNone ∧ (s.pending t).contains tid ∧
          columns.length + 8 < db7MaxRowSize ∧
          (leavesUpTo s.leaves (buildKey columns 0)
            s.leaves.nextPid s.leaves.rootId).contains start then
        some { s with
          pending := update s.pending t ((s.pending t).erase tid)
          calls := update s.calls t (some ⟨columns, tid, .goRight start⟩) }
      else none
  | .run t =>
      match s.calls t with
      | none => none
      | some c =>
          match s.runCall t c with
          | .ok s' => some s'
          | .error _ => none

/-- Before any transaction: an empty index on any table. -/
def Init (s : UniqueIndex) : Prop :=
  s.db.Init ∧ s.leaves = .init ∧ (∀ pid, s.latch pid = none) ∧ (∀ t, s.pending t = []) ∧
    ∀ t, s.calls t = none

end UniqueIndex

/-- The index and the transactions as a transition system. -/
def uniqueSystem : TSys UniqueIndex UniqueAction := ⟨UniqueIndex.Init, UniqueIndex.step⟩

end Db7
