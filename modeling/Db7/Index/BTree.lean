import Db7.Index.VarlenLayout
import Db7.Lib.TSys
import Mathlib.Logic.Function.Basic

/-!
# The index at the granularity of its page accesses

`BTreeIndex` by any number of threads. One step is one write-latched page
section (a page, and the fresh right page when it splits), one validated
optimistic page read, one load of `root_id_`, one `root_mtx_` section, or the
unvalidated read of a leaf's right link in `InternalGet`.

* `DropToLevel(key)` is `loadRoot` and `descend`, and pushes the inner pages
  that it leaves downwards;
* `InsertInternal` and `DeleteInternal` are `leaf`, with `GoRightLeaf` one latch
  at a time;
* after a split, `PropagateInsert` is `inter`, one page of the stack after the
  other; with an empty stack the thread takes `root_mtx_` (`root`) and, when it
  did not split the root, descends again (`reloadRoot`, `redescend`);
* `InternalGet` is `scan` and `follow`.

Keys are passed by value and the bytes of a page survive between pins. An
assertion that fails, or a write outside a page's heap, leaves the thread
without a next step.
-/

namespace Db7

open Lib Function KeyNormEncoder

/-- A call of the index, with the encoded columns. -/
inductive IndexOp
  | insert (columns : Key) (tid : Nat)
  | delete (columns : Key) (tid : Nat)
  | get (columns : Key)
  deriving DecidableEq, Repr

/-- The key that the call builds. -/
def IndexOp.key : IndexOp → Key
  | insert columns tid | delete columns tid => buildKey columns tid
  | get columns => buildKey columns 0

/-- Where a thread is inside a call. -/
inductive BtreePc
  | idle
  | loadRoot
  | descend (pid : Nat)
  | leaf (pid : Nat)
  | root (level : Nat) (sentinel : Key) (pid newPid : Nat)
  | reloadRoot (dropLevel : Nat) (sentinel : Key) (newPid : Nat)
  | redescend (dropLevel : Nat) (sentinel : Key) (newPid pid level : Nat)
  | inter (sentinel : Key) (value pid : Nat)
  | scan (pid : Nat) (results : List Nat)
  | follow (pid : Nat) (results : List Nat)
  | done (results : List Nat)
  deriving DecidableEq, Repr

/-- A thread: its call, `TlState`'s stack with the top first, and, for the
statement of what a call finds, the pairs that were there when it started. -/
structure BtreeThread where
  op : IndexOp
  stack : List Nat
  pc : BtreePc
  before : List Key

/-- `BTreeIndex` and its pages. `begun` are the keys of the inserts that were
called, `present` of those that returned, less the deleted ones; no step reads
them. -/
structure BTreeIndex where
  pages : Nat → Option BtreePage
  rootId : Nat
  nextPid : Nat
  threads : Nat → BtreeThread
  begun : List Key
  present : List Key

/-- What a scheduler may do next. -/
inductive BtreeAction
  | invoke (t : Nat) (op : IndexOp)
  | run (t : Nat)
  | ret (t : Nat)
  deriving DecidableEq, Repr

/-- `BUFFER_POOL_PAGE_NUM`, the bound that `Reserve` puts on page ids. -/
def reserveLimit : Nat := 80000

namespace BTreeIndex

/-- The constructor: the root is an empty leaf. -/
def init : BTreeIndex where
  pages := update (fun _ => none) 1 (some (.initHeader 0 1))
  rootId := 1
  nextPid := 2
  threads := fun _ => ⟨.get [], [], .idle, []⟩
  begun := []
  present := []

def setPage (s : BTreeIndex) (pid : Nat) (pg : BtreePage) : BTreeIndex :=
  { s with pages := update s.pages pid (some pg) }

def goto (s : BTreeIndex) (t : Nat) (pc : BtreePc) : BTreeIndex :=
  { s with threads := update s.threads t { s.threads t with pc := pc } }

def setStack (s : BTreeIndex) (t : Nat) (stack : List Nat) : BTreeIndex :=
  { s with threads := update s.threads t { s.threads t with stack := stack } }

/-- `GetNode`. -/
def getNode (s : BTreeIndex) (pid : Nat) : Except Fault BtreePage := do
  assertThat (decide (pid ≠ undefinedPage)) "invalid pid"
  match s.pages pid with
  | some pg => .ok pg
  | none => .error .overrun

/-- `ReserveNode`: the id of the next page. -/
def reserveNode (s : BTreeIndex) : Except Fault (BTreeIndex × Nat) := do
  assertThat (decide (s.nextPid < reserveLimit)) "no more pages"
  .ok ({ s with nextPid := s.nextPid + 1 }, s.nextPid)

/-- `TlState::Push`. -/
def push (s : BTreeIndex) (t pid : Nat) : Except Fault BTreeIndex := do
  assertThat (decide ((s.threads t).stack.length < 16)) "Invalid size tried to push to full stack"
  .ok (s.setStack t (pid :: (s.threads t).stack))

/-- What follows a split of page `pid`: `PropagateInsert` on the top of the
stack, or the root section when the stack is empty. -/
def afterSplit (s : BTreeIndex) (t level : Nat) (sentinel : Key) (pid newPid : Nat) : BTreeIndex :=
  match (s.threads t).stack with
  | [] => s.goto t (.root level sentinel pid newPid)
  | top :: stack => (s.setStack t stack).goto t (.inter sentinel newPid top)

/-- One round of `DropToLevel(key)`. -/
def descendStep (s : BTreeIndex) (t pid : Nat) : Except Fault BTreeIndex := do
  let key := (s.threads t).op.key
  let pg ← s.getNode pid
  if pg.level = 0 then
    match (s.threads t).op with
    | .get _ => .ok (s.goto t (.scan pid []))
    | _ => .ok (s.goto t (.leaf pid))
  else if BtreeVarlenLayoutIntermediate.hasSplit pg key then .ok (s.goto t (.descend pg.rlink))
  else do
    let child ← BtreeVarlenLayoutIntermediate.get pg key
    let s ← s.push t pid
    .ok (s.goto t (.descend child))

/-- `SplitLeaf` and what follows it in `InsertInternal`. -/
def splitLeafStep (s : BTreeIndex) (t pid : Nat) (pg : BtreePage) (key : Key) :
    Except Fault BTreeIndex := do
  let (s, newPid) ← s.reserveNode
  let (left, right, sentinel) ← BtreeVarlenLayoutLeaf.split pg (.initHeader 0 newPid) newPid key
  .ok (((s.setPage pid left).setPage newPid right).afterSplit t left.level sentinel pid newPid)

/-- A latched section of `InsertInternal`. -/
def insertStep (s : BTreeIndex) (t pid : Nat) (key : Key) : Except Fault BTreeIndex := do
  let pg ← s.getNode pid
  if BtreeVarlenLayoutLeaf.hasSplit pg key then .ok (s.goto t (.leaf pg.rlink))
  else if BtreeVarlenLayoutLeaf.hasSpace pg key then do
    let pg ← BtreeVarlenLayoutLeaf.insert pg key
    .ok ((s.setPage pid pg).goto t (.done []))
  else s.splitLeafStep t pid pg key

/-- A latched section of `DeleteInternal`. -/
def deleteStep (s : BTreeIndex) (t pid : Nat) (key : Key) : Except Fault BTreeIndex := do
  let pg ← s.getNode pid
  if BtreeVarlenLayoutLeaf.hasSplit pg key then .ok (s.goto t (.leaf pg.rlink))
  else do
    let pg ← BtreeVarlenLayoutLeaf.delete pg key
    .ok ((s.setPage pid pg).goto t (.done []))

/-- `CreateNewRoot`. -/
def createNewRoot (s : BTreeIndex) (level : Nat) (key : Key) (pid newPid : Nat) :
    Except Fault BTreeIndex := do
  let (s, rootPid) ← s.reserveNode
  let root ← BtreeVarlenLayoutIntermediate.createRoot (.initHeader (level + 1) rootPid)
    key pid newPid
  .ok { s.setPage rootPid root with rootId := rootPid }

/-- The `root_mtx_` section. -/
def rootStep (s : BTreeIndex) (t level : Nat) (sentinel : Key) (pid newPid : Nat) :
    Except Fault BTreeIndex :=
  if s.rootId = pid then do
    let s ← s.createNewRoot level sentinel pid newPid
    .ok (s.goto t (.done []))
  else .ok (s.goto t (.reloadRoot (level + 1) sentinel newPid))

/-- The start of `DropToLevel(key, drop_level)`. The level of a page does not
change, so its first read is part of this step. -/
def reloadRootStep (s : BTreeIndex) (t dropLevel : Nat) (sentinel : Key) (newPid : Nat) :
    Except Fault BTreeIndex := do
  let pg ← s.getNode s.rootId
  .ok (s.goto t (.redescend dropLevel sentinel newPid s.rootId pg.level))

/-- One round of `DropToLevel(key, drop_level)`. At its end `PropagateInsert`
pops the page that was pushed last. -/
def redescendStep (s : BTreeIndex) (t dropLevel : Nat) (sentinel : Key) (newPid pid level : Nat) :
    Except Fault BTreeIndex := do
  let pg ← s.getNode pid
  assertThat (decide (level = pg.level)) "invalid level node"
  if level ≤ dropLevel then do
    let s ← s.push t pid
    .ok ((s.setStack t (s.threads t).stack.tail).goto t (.inter sentinel newPid pid))
  else if BtreeVarlenLayoutIntermediate.hasSplit pg sentinel then
    .ok (s.goto t (.redescend dropLevel sentinel newPid pg.rlink level))
  else do
    let child ← BtreeVarlenLayoutIntermediate.get pg sentinel
    let s ← s.push t pid
    .ok (s.goto t (.redescend dropLevel sentinel newPid child (level - 1)))

/-- `SplitInter` and what follows it in `PropagateInsert`. -/
def splitInterStep (s : BTreeIndex) (t pid : Nat) (pg : BtreePage) (key : Key) (value : Nat) :
    Except Fault BTreeIndex := do
  let (s, newPid) ← s.reserveNode
  let (left, right, sentinel) ←
    BtreeVarlenLayoutIntermediate.split pg (.initHeader pg.level newPid) newPid key value
  .ok (((s.setPage pid left).setPage newPid right).afterSplit t left.level sentinel pid newPid)

/-- A latched section of `PropagateInsert`. -/
def interStep (s : BTreeIndex) (t : Nat) (key : Key) (value pid : Nat) :
    Except Fault BTreeIndex := do
  let pg ← s.getNode pid
  if BtreeVarlenLayoutIntermediate.hasSplit pg key then .ok (s.goto t (.inter key value pg.rlink))
  else if BtreeVarlenLayoutIntermediate.hasSpace pg key then do
    let pg ← BtreeVarlenLayoutIntermediate.insert pg key value
    .ok ((s.setPage pid pg).goto t (.done []))
  else s.splitInterStep t pid pg key value

/-- A validated read of `InternalGet`. -/
def scanStep (s : BTreeIndex) (t pid : Nat) (results : List Nat) : Except Fault BTreeIndex := do
  let key := (s.threads t).op.key
  let pg ← s.getNode pid
  if BtreeVarlenLayoutLeaf.hasSplit pg key then .ok (s.goto t (.scan pg.rlink results))
  else
    let (tmpResults, proceed) := BtreeVarlenLayoutLeaf.get pg key
    if proceed then .ok (s.goto t (.follow pid (results ++ tmpResults)))
    else .ok (s.goto t (.done (results ++ tmpResults)))

/-- The read of the right link after the validation. -/
def followStep (s : BTreeIndex) (t pid : Nat) (results : List Nat) : Except Fault BTreeIndex := do
  let pg ← s.getNode pid
  if pg.rlink = undefinedPage then .ok (s.goto t (.done results))
  else .ok (s.goto t (.scan pg.rlink results))

/-- The next step of thread `t`. -/
def runThread (s : BTreeIndex) (t : Nat) : BtreePc → Except Fault BTreeIndex
  | .loadRoot => .ok (s.goto t (.descend s.rootId))
  | .descend pid => s.descendStep t pid
  | .leaf pid =>
      match (s.threads t).op with
      | .insert .. => s.insertStep t pid (s.threads t).op.key
      | .delete .. => s.deleteStep t pid (s.threads t).op.key
      | .get _ => .error .overrun
  | .root level sentinel pid newPid => s.rootStep t level sentinel pid newPid
  | .reloadRoot dropLevel sentinel newPid => s.reloadRootStep t dropLevel sentinel newPid
  | .redescend dropLevel sentinel newPid pid level =>
      s.redescendStep t dropLevel sentinel newPid pid level
  | .inter sentinel value pid => s.interStep t sentinel value pid
  | .scan pid results => s.scanStep t pid results
  | .follow pid results => s.followStep t pid results
  | .idle | .done _ => .error .overrun

/-- The call returns. -/
def finish (s : BTreeIndex) (t : Nat) : BTreeIndex :=
  let s' := s.goto t .idle
  match (s.threads t).op with
  | .insert columns tid => { s' with present := buildKey columns tid :: s.present }
  | .delete columns tid =>
      { s' with
        begun := s.begun.erase (buildKey columns tid)
        present := s.present.erase (buildKey columns tid) }
  | .get _ => s'

def step (s : BTreeIndex) : BtreeAction → Option BTreeIndex
  | .invoke t op =>
      if (s.threads t).pc = .idle then
        some { s with
          threads := update s.threads t ⟨op, [], .loadRoot, s.present⟩
          begun := match op with
            | .insert columns tid => buildKey columns tid :: s.begun
            | _ => s.begun }
      else none
  | .run t =>
      match s.runThread t (s.threads t).pc with
      | .ok s' => some s'
      | .error _ => none
  | .ret t =>
      match (s.threads t).pc with
      | .done _ => some (s.finish t)
      | _ => none

end BTreeIndex

/-- The index as a transition system. -/
def btreeSystem : TSys BTreeIndex BtreeAction := ⟨fun s => s = BTreeIndex.init, BTreeIndex.step⟩

end Db7
