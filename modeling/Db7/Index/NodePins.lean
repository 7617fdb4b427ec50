import Db7.Index.VarlenLayout
import Db7.Lib.TSys
import Mathlib.Logic.Function.Basic

/-!
# The index and its pins

`BTreeIndex` with what `GetNode`, `ReserveNode` and `ReleaseNode` do to the pin
counts and the write latches of pages, and with `InsertUnique`. Pages are as in
`Db7.Index.BTree`; here a step is one `GetNode` up to the pin (`getNode`), or one
section on the page pinned by it (`node`):

* a validated optimistic read, which needs a page without a writer;
* a write-latched section, which waits for the latch. `InsertUnique` keeps its
  latches while it goes right over the leaves of its columns (`check`, `crab`) and
  gives them back together (`FreePages`);
* the unvalidated read of the right link in `InternalGet` (`follow`).

Which of the ids that `CheckUnique` meets are in conflict is for the version
chains to say; the scheduler brings that along.
-/

namespace Db7

open Lib Function KeyNormEncoder

namespace BtreeVarlenLayoutLeaf

open Layout (leaf)

/-- `FindStartPosition`. -/
def findStartPosition (pg : BtreePage) (key : Key) : Nat :=
  partitionPoint (fun i => decide (cmpPrefix (leaf.slotKey pg (pg.slot i)) key < 0))
    pg.count 0 pg.count

/-- `CheckUnique` from the start position, or from the first slot: `none` on a
conflict, else whether to proceed to the right. -/
def checkUnique (pg : BtreePage) (key : Key) (conflict : Nat → Bool) (search : Bool) :
    Option Bool :=
  let idx := if search then findStartPosition pg key else 0
  let hits := ((pg.slots.drop idx).map (leaf.slotKey pg)).takeWhile fun cur => cmpPrefix cur key = 0
  if hits.any fun cur => conflict (result cur) then none else some (highPrefixCmp pg key)

end BtreeVarlenLayoutLeaf

/-- A call of the index, with the encoded columns. -/
inductive PinOp
  | insert (columns : Key) (tid : Nat)
  | insertUnique (columns : Key) (tid : Nat)
  | delete (columns : Key) (tid : Nat)
  | get (columns : Key)
  deriving DecidableEq, Repr

namespace PinOp

/-- The key of the descent; `InsertUnique` descends with the id 0. -/
def descentKey : PinOp → Key
  | insert columns tid | delete columns tid => buildKey columns tid
  | insertUnique columns _ | get columns => buildKey columns 0

/-- The key in the leaf. -/
def key : PinOp → Key
  | insert columns tid | insertUnique columns tid | delete columns tid => buildKey columns tid
  | get columns => buildKey columns 0

end PinOp

/-- What a thread does with the page that it gets from `GetNode`. -/
inductive NodePc
  | drop (pid : Nat)
  | leaf (pid : Nat)
  | unique (pid : Nat)
  | crab (pid : Nat) (visited : List Nat) (insertPage : Option Nat)
  | redrop (dropLevel : Nat) (sentinel : Key) (newPid pid : Nat) (level : Option Nat)
  | inter (sentinel : Key) (value pid : Nat)
  | scan (pid : Nat) (results : List Nat)
  deriving DecidableEq, Repr

namespace NodePc

def pid : NodePc → Nat
  | drop pid | leaf pid | unique pid | crab pid .. | redrop _ _ _ pid _ | inter _ _
    pid | scan pid _ => pid

/-- `visited` of `InsertUnique`. -/
def visited : NodePc → List Nat
  | crab _ visited _ => visited
  | _ => []

end NodePc

/-- Where a thread is inside a call. -/
inductive PinPc
  | idle
  | loadRoot
  | getNode (n : NodePc)
  | node (n : NodePc)
  | check (pid : Nat) (visited : List Nat) (insertPage : Option Nat) (search : Bool)
  | insertUnique (insertPage : Nat) (visited : List Nat)
  | root (level : Nat) (sentinel : Key) (pid newPid : Nat)
  | reloadRoot (dropLevel : Nat) (sentinel : Key) (newPid : Nat)
  | follow (pid : Nat) (results : List Nat)
  | done (success : Bool) (results : List Nat)
  deriving DecidableEq, Repr

/-- A thread: its call and `TlState`'s stack. -/
structure PinThread where
  op : PinOp
  stack : List Nat
  pc : PinPc

/-- The index, the pin counts and write latches of its pages. `redrops` counts
the second descents that have ended at a page; no step reads it. -/
structure PinnedIndex where
  pages : Nat → Option BtreePage
  rootId : Nat
  nextPid : Nat
  pins : Nat → Nat
  latch : Nat → Option Nat
  threads : Nat → PinThread
  redrops : Nat → Nat

/-- What a scheduler may do next; `conflicts` are the ids with which a unique
insert is in conflict now. -/
inductive PinAction
  | invoke (t : Nat) (op : PinOp)
  | run (t : Nat) (conflicts : List Nat)
  | ret (t : Nat)
  deriving DecidableEq, Repr

namespace PinnedIndex

/-- The constructor: the root is an empty leaf. Others may hold pins. -/
def init (pins : Nat → Nat) : PinnedIndex where
  pages := update (fun _ => none) 1 (some (.initHeader 0 1))
  rootId := 1
  nextPid := 2
  pins := pins
  latch := fun _ => none
  threads := fun _ => ⟨.get [], [], .idle⟩
  redrops := fun _ => 0

def setPage (s : PinnedIndex) (pid : Nat) (pg : BtreePage) : PinnedIndex :=
  { s with pages := update s.pages pid (some pg) }

def goto (s : PinnedIndex) (t : Nat) (pc : PinPc) : PinnedIndex :=
  { s with threads := update s.threads t { s.threads t with pc := pc } }

def setStack (s : PinnedIndex) (t : Nat) (stack : List Nat) : PinnedIndex :=
  { s with threads := update s.threads t { s.threads t with stack := stack } }

/-- `BufferPool::Pin`. -/
def pin (s : PinnedIndex) (pid : Nat) : PinnedIndex :=
  { s with pins := update s.pins pid (s.pins pid + 1) }

/-- `BufferPool::Unpin`; also `ReleaseNode<None>`. -/
def unpin (s : PinnedIndex) (pid : Nat) : PinnedIndex :=
  { s with pins := update s.pins pid (s.pins pid - 1) }

/-- `Lock<Write>`. -/
def lock (s : PinnedIndex) (t pid : Nat) : PinnedIndex :=
  { s with latch := update s.latch pid (some t) }

/-- `Unlock<Write>`. -/
def unlock (s : PinnedIndex) (pid : Nat) : PinnedIndex :=
  { s with latch := update s.latch pid none }

/-- `ReleaseNode<Write>`. -/
def releaseNode (s : PinnedIndex) (pid : Nat) : PinnedIndex := (s.unlock pid).unpin pid

/-- `FreePages`. -/
def freePages (s : PinnedIndex) (visited : List Nat) : PinnedIndex := visited.foldl releaseNode s

/-- The bytes of a page. -/
def getData (s : PinnedIndex) (pid : Nat) : Except Fault BtreePage := do
  assertThat (decide (pid ≠ undefinedPage)) "invalid pid"
  match s.pages pid with
  | some pg => .ok pg
  | none => .error .overrun

/-- `ReserveNode`: the id of the next page, pinned and latched. -/
def reserveNode (s : PinnedIndex) (t : Nat) : Except Fault (PinnedIndex × Nat) := do
  assertThat (decide (s.nextPid < 80000)) "no more pages"
  .ok (({ s with nextPid := s.nextPid + 1 }.pin s.nextPid).lock t s.nextPid, s.nextPid)

/-- `TlState::Push`. -/
def push (s : PinnedIndex) (t pid : Nat) : Except Fault PinnedIndex := do
  assertThat (decide ((s.threads t).stack.length < 16)) "Invalid size tried to push to full stack"
  .ok (s.setStack t (pid :: (s.threads t).stack))

/-- What follows a split: `PropagateInsert` on the top of the stack, or the root
section when the stack is empty. -/
def afterSplit (s : PinnedIndex) (t level : Nat) (sentinel : Key) (pid newPid : Nat) :
    PinnedIndex :=
  match (s.threads t).stack with
  | [] => s.goto t (.root level sentinel pid newPid)
  | top :: stack => (s.setStack t stack).goto t (.getNode (.inter sentinel newPid top))

/-- One round of `DropToLevel(key)`. At a leaf the page stays pinned. -/
def dropStep (s : PinnedIndex) (t pid : Nat) : Except Fault PinnedIndex := do
  let key := (s.threads t).op.descentKey
  let pg ← s.getData pid
  if pg.level = 0 then
    match (s.threads t).op with
    | .get _ => .ok (s.goto t (.node (.scan pid [])))
    | .insertUnique .. => .ok (s.goto t (.node (.unique pid)))
    | _ => .ok (s.goto t (.node (.leaf pid)))
  else if BtreeVarlenLayoutIntermediate.hasSplit pg key then
    .ok ((s.unpin pid).goto t (.getNode (.drop pg.rlink)))
  else do
    let child ← BtreeVarlenLayoutIntermediate.get pg key
    let s ← s.push t pid
    .ok ((s.unpin pid).goto t (.getNode (.drop child)))

/-- `SplitLeaf` on a latched page. -/
def splitLeaf (s : PinnedIndex) (t pid : Nat) (pg : BtreePage) (key : Key) :
    Except Fault (PinnedIndex × Nat × Key) := do
  let (s, newPid) ← s.reserveNode t
  let (left, right, sentinel) ← BtreeVarlenLayoutLeaf.split pg (.initHeader 0 newPid) newPid key
  .ok (((s.setPage pid left).setPage newPid right).releaseNode newPid, newPid, sentinel)

/-- `SplitInter` on a latched page. -/
def splitInter (s : PinnedIndex) (t pid : Nat) (pg : BtreePage) (key : Key) (value : Nat) :
    Except Fault (PinnedIndex × Nat × Key) := do
  let (s, newPid) ← s.reserveNode t
  let (left, right, sentinel) ←
    BtreeVarlenLayoutIntermediate.split pg (.initHeader pg.level newPid) newPid key value
  .ok (((s.setPage pid left).setPage newPid right).releaseNode newPid, newPid, sentinel)

/-- A latched section of `InsertInternal`. -/
def insertStep (s : PinnedIndex) (t pid : Nat) (key : Key) : Except Fault PinnedIndex := do
  let s := s.lock t pid
  let pg ← s.getData pid
  if BtreeVarlenLayoutLeaf.hasSplit pg key then
    .ok ((s.releaseNode pid).goto t (.getNode (.leaf pg.rlink)))
  else if BtreeVarlenLayoutLeaf.hasSpace pg key then do
    let pg ← BtreeVarlenLayoutLeaf.insert pg key
    .ok (((s.setPage pid pg).releaseNode pid).goto t (.done true []))
  else do
    let (s, newPid, sentinel) ← s.splitLeaf t pid pg key
    .ok ((s.releaseNode pid).afterSplit t pg.level sentinel pid newPid)

/-- A latched section of `DeleteInternal`. -/
def deleteStep (s : PinnedIndex) (t pid : Nat) (key : Key) : Except Fault PinnedIndex := do
  let s := s.lock t pid
  let pg ← s.getData pid
  if BtreeVarlenLayoutLeaf.hasSplit pg key then
    .ok ((s.releaseNode pid).goto t (.getNode (.leaf pg.rlink)))
  else do
    let pg ← BtreeVarlenLayoutLeaf.delete pg key
    .ok (((s.setPage pid pg).releaseNode pid).goto t (.done true []))

/-- `GoRightLeaf` of `InsertUnique`; at its end the latch stays. -/
def uniqueStep (s : PinnedIndex) (t pid : Nat) : Except Fault PinnedIndex := do
  let s := s.lock t pid
  let pg ← s.getData pid
  if BtreeVarlenLayoutLeaf.hasSplit pg (s.threads t).op.descentKey then
    .ok ((s.releaseNode pid).goto t (.getNode (.unique pg.rlink)))
  else .ok (s.goto t (.check pid [] none true))

/-- One round of the loop of `InsertUnique`. Without a page to insert into,
`InsertInternalUnique` reads through a null pointer. -/
def checkStep (s : PinnedIndex) (t pid : Nat) (visited : List Nat) (insertPage : Option Nat)
    (search : Bool) (conflict : Nat → Bool) : Except Fault PinnedIndex := do
  let key := (s.threads t).op.key
  let visited := visited ++ [pid]
  let pg ← s.getData pid
  match BtreeVarlenLayoutLeaf.checkUnique pg key conflict search with
  | none => .ok ((s.freePages visited).goto t (.done false []))
  | some proceed =>
      let insertPage :=
        if insertPage = none ∧ ¬ BtreeVarlenLayoutLeaf.hasSplit pg key then some pid else insertPage
      if proceed then .ok (s.goto t (.getNode (.crab pg.rlink visited insertPage)))
      else
        match insertPage with
        | some page => .ok (s.goto t (.insertUnique page visited))
        | none => .error .overrun

/-- `InsertInternalUnique`. -/
def insertUniqueStep (s : PinnedIndex) (t page : Nat) (visited : List Nat) :
    Except Fault PinnedIndex := do
  let key := (s.threads t).op.key
  let pg ← s.getData page
  if BtreeVarlenLayoutLeaf.hasSpace pg key then do
    let pg ← BtreeVarlenLayoutLeaf.insert pg key
    .ok (((s.setPage page pg).freePages visited).goto t (.done true []))
  else do
    let (s, newPid, sentinel) ← s.splitLeaf t page pg key
    .ok ((s.freePages visited).afterSplit t pg.level sentinel page newPid)

/-- `CreateNewRoot`. -/
def createNewRoot (s : PinnedIndex) (t level : Nat) (key : Key) (pid newPid : Nat) :
    Except Fault PinnedIndex := do
  let (s, rootPid) ← s.reserveNode t
  let root ← BtreeVarlenLayoutIntermediate.createRoot (.initHeader (level + 1) rootPid)
    key pid newPid
  .ok ({ s.setPage rootPid root with rootId := rootPid }.releaseNode rootPid)

/-- The `root_mtx_` section. -/
def rootStep (s : PinnedIndex) (t level : Nat) (sentinel : Key) (pid newPid : Nat) :
    Except Fault PinnedIndex :=
  if s.rootId = pid then do
    let s ← s.createNewRoot t level sentinel pid newPid
    .ok (s.goto t (.done true []))
  else .ok (s.goto t (.reloadRoot (level + 1) sentinel newPid))

/-- One round of `DropToLevel(key, drop_level)`. At its end the page is pushed,
and popped by `PropagateInsert`, but it is not released. -/
def redropStep (s : PinnedIndex) (t dropLevel : Nat) (sentinel : Key) (newPid pid : Nat)
    (level : Option Nat) : Except Fault PinnedIndex := do
  let pg ← s.getData pid
  let level := level.getD pg.level
  assertThat (decide (level = pg.level)) "invalid level node"
  if level ≤ dropLevel then do
    let s ← s.push t pid
    .ok ({ s.setStack t (s.threads t).stack.tail with
      redrops := update s.redrops pid (s.redrops pid + 1) }.goto t
        (.getNode (.inter sentinel newPid pid)))
  else if BtreeVarlenLayoutIntermediate.hasSplit pg sentinel then
    .ok ((s.unpin pid).goto t (.getNode (.redrop dropLevel sentinel newPid pg.rlink (some level))))
  else do
    let child ← BtreeVarlenLayoutIntermediate.get pg sentinel
    let s ← s.push t pid
    .ok ((s.unpin pid).goto t
      (.getNode (.redrop dropLevel sentinel newPid child (some (level - 1)))))

/-- A latched section of `PropagateInsert`. -/
def interStep (s : PinnedIndex) (t : Nat) (key : Key) (value pid : Nat) :
    Except Fault PinnedIndex := do
  let s := s.lock t pid
  let pg ← s.getData pid
  if BtreeVarlenLayoutIntermediate.hasSplit pg key then
    .ok ((s.releaseNode pid).goto t (.getNode (.inter key value pg.rlink)))
  else if BtreeVarlenLayoutIntermediate.hasSpace pg key then do
    let pg ← BtreeVarlenLayoutIntermediate.insert pg key value
    .ok (((s.setPage pid pg).releaseNode pid).goto t (.done true []))
  else do
    let (s, newPid, sentinel) ← s.splitInter t pid pg key value
    .ok ((s.releaseNode pid).afterSplit t pg.level sentinel pid newPid)

/-- A validated read of `InternalGet`. -/
def scanStep (s : PinnedIndex) (t pid : Nat) (results : List Nat) : Except Fault PinnedIndex := do
  let key := (s.threads t).op.key
  let pg ← s.getData pid
  if BtreeVarlenLayoutLeaf.hasSplit pg key then
    .ok ((s.unpin pid).goto t (.getNode (.scan pg.rlink results)))
  else
    let (tmpResults, proceed) := BtreeVarlenLayoutLeaf.get pg key
    if proceed then .ok (s.goto t (.follow pid (results ++ tmpResults)))
    else .ok ((s.unpin pid).goto t (.done true (results ++ tmpResults)))

/-- The read of the right link after the validation. -/
def followStep (s : PinnedIndex) (t pid : Nat) (results : List Nat) : Except Fault PinnedIndex := do
  let pg ← s.getData pid
  if pg.rlink = undefinedPage then .ok ((s.unpin pid).goto t (.done true results))
  else .ok ((s.unpin pid).goto t (.getNode (.scan pg.rlink results)))

/-- The section on a pinned page. -/
def nodeStep (s : PinnedIndex) (t : Nat) : NodePc → Except Fault PinnedIndex
  | .drop pid => s.dropStep t pid
  | .leaf pid =>
      match (s.threads t).op with
      | .delete .. => s.deleteStep t pid (s.threads t).op.key
      | _ => s.insertStep t pid (s.threads t).op.key
  | .unique pid => s.uniqueStep t pid
  | .crab pid visited insertPage =>
      .ok ((s.lock t pid).goto t (.check pid visited insertPage false))
  | .redrop dropLevel sentinel newPid pid level => s.redropStep t dropLevel sentinel
      newPid pid level
  | .inter sentinel value pid => s.interStep t sentinel value pid
  | .scan pid results => s.scanStep t pid results

/-- The next step of thread `t`. On a page that a writer has latched there is
none: a read does not validate, and another writer waits. -/
def runThread (s : PinnedIndex) (t : Nat) (conflict : Nat → Bool) : PinPc → Except Fault PinnedIndex
  | .loadRoot => .ok (s.goto t (.getNode (.drop s.rootId)))
  | .getNode n => .ok ((s.pin n.pid).goto t (.node n))
  | .node n =>
      if s.latch n.pid = none then s.nodeStep t n else .error (.assertion "waits for the latch")
  | .check pid visited insertPage search => s.checkStep t pid visited insertPage search conflict
  | .insertUnique page visited => s.insertUniqueStep t page visited
  | .root level sentinel pid newPid => s.rootStep t level sentinel pid newPid
  | .reloadRoot dropLevel sentinel newPid =>
      .ok (s.goto t (.getNode (.redrop dropLevel sentinel newPid s.rootId none)))
  | .follow pid results => s.followStep t pid results
  | .idle | .done .. => .error .overrun

def step (s : PinnedIndex) : PinAction → Option PinnedIndex
  | .invoke t op =>
      if (s.threads t).pc = .idle then
        some { s with threads := update s.threads t ⟨op, [], .loadRoot⟩ }
      else none
  | .run t conflicts =>
      match s.runThread t (fun tid => conflicts.contains tid) (s.threads t).pc with
      | .ok s' => some s'
      | .error _ => none
  | .ret t =>
      match (s.threads t).pc with
      | .done .. => some (s.goto t .idle)
      | _ => none

end PinnedIndex

/-- The index with pins as a transition system. -/
def pinSystem (pins : Nat → Nat) : TSys PinnedIndex PinAction :=
  ⟨fun s => s = PinnedIndex.init pins, PinnedIndex.step⟩

end Db7
