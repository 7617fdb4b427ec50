import Db7.Index.KeyOrder
import Db7.Lib.BLink
import Db7.Lib.Search
import Mathlib.Data.List.Sort

/-!
# Index pages

A page is a header, an array of slots growing up and a heap of records growing
down from the end of the page; a slot is the heap offset of a record. The two
page formats, `BtreeVarlenLayoutLeaf` and `BtreeVarlenLayoutIntermediate`, share
their code but for the record header and the alignment, which `Layout` gives.

The heap is modelled byte by byte; the header and the slot array are fields. A
write that would leave the heap area, into the slots or past the end of the
page, is the fault `overrun`: the code does not check for it.
-/

namespace Db7

open Lib

/-- Why an operation does not return. -/
inductive Fault
  | assertion (message : String)
  | overrun
  deriving DecidableEq, Repr

/-- `DB7_ASSERT`. -/
def assertThat (c : Bool) (message : String) : Except Fault Unit :=
  if c then .ok () else .error (.assertion message)

/-- `sizeof(VarlenHeader)`. -/
def headerSize : Nat := 20

/-- `UNDEFINED_PAGE`. -/
def undefinedPage : Nat := 2 ^ 32 - 1

/-- `UNDEFINED_OFFSET`. -/
def undefinedOffset : Nat := 2 ^ 16 - 1

/-- Unsigned 16-bit wrap-around. -/
def u16 (n : Nat) : Nat := n % 2 ^ 16

/-- The two record formats. -/
inductive Layout
  | leaf
  | inter
  deriving DecidableEq, Repr

namespace Layout

/-- `sizeof(u16)` and `sizeof(SlotValHeaderInter<page_id>)`. -/
def hdrSize : Layout → Nat
  | leaf => 2
  | inter => 8

def align : Layout → Nat
  | leaf => 2
  | inter => 4

/-- Where the header has the length. -/
def lenAt : Layout → Nat
  | leaf => 0
  | inter => 4

/-- The header's bytes, without the padding at its end. -/
def header : Layout → (child len : Nat) → List Byte
  | leaf, _, len => toLE 2 len
  | inter, child, len => toLE 4 child ++ toLE 2 len

end Layout

/-- `VarlenHeader`, the slots (`count` is their number) and the heap. -/
structure BtreePage where
  pid : Nat
  rlink : Nat
  maxVal : Nat
  level : Nat
  heapOffset : Nat
  slots : List Nat
  heap : Mem

namespace BtreePage

/-- `InitHeader` on a page that `Reserve` has cleared. -/
def initHeader (level pid : Nat) : BtreePage where
  pid := pid
  rlink := undefinedPage
  maxVal := undefinedOffset
  level := level
  heapOffset := db7PageSize
  slots := []
  heap := fun _ => ⟨0, by decide⟩

def count (pg : BtreePage) : Nat := pg.slots.length

def slot (pg : BtreePage) (i : Nat) : Nat := pg.slots.getD i 0

end BtreePage

namespace Layout

variable (lay : Layout) (pg : BtreePage)

/-- The length field of the record at `off`. -/
def slotLen (off : Nat) : Nat := ofLE (pg.heap.read (off + lay.lenAt) 2)

/-- The key of the record at `off` (`SlotValLeaf`, `SlotValInter`). -/
def slotKey (off : Nat) : Key := pg.heap.read (off + lay.hdrSize) (lay.slotLen pg off)

/-- The child of the record at `off`; a leaf record has none. -/
def slotChild (off : Nat) : Nat :=
  match lay with
  | leaf => 0
  | inter => ofLE (pg.heap.read off 4)

def calculateHeapOffset (prevHeapOffset tupleLen : Nat) : Nat :=
  u16 (prevHeapOffset + 2 ^ 17 - tupleLen - lay.hdrSize) / lay.align * lay.align

/-- `AppendHeap`: the page and the offset of the new record. -/
def appendHeap (key : Key) (child : Nat) : Except Fault (BtreePage × Nat) :=
  let off := lay.calculateHeapOffset pg.heapOffset key.length
  if off + lay.hdrSize + key.length ≤ db7PageSize ∧ headerSize + 2 * pg.count ≤ off then
    .ok ({ pg with
      heap := (pg.heap.write off (lay.header child key.length)).write (off + lay.hdrSize) key
      heapOffset := off }, off)
  else .error .overrun

/-- `MoveHeap`. -/
def moveHeap (oldOffset len : Nat) : Except Fault (BtreePage × Nat) := do
  let off := lay.calculateHeapOffset pg.heapOffset len
  if off + lay.hdrSize + len ≤ db7PageSize then
    assertThat (decide (off ≥ oldOffset)) "compaction must not move tuples down"
    .ok ({ pg with
      heap := pg.heap.write off (pg.heap.read oldOffset (lay.hdrSize + len))
      heapOffset := off }, off)
  else .error .overrun

/-- One round of the loop of `CompactHeap`. -/
def compactOne (pg : BtreePage) (idx : Nat) : Except Fault BtreePage := do
  let (pg', off) ← lay.moveHeap pg (pg.slot idx) (lay.slotLen pg (pg.slot idx))
  .ok { pg' with slots := pg'.slots.set idx off }

/-- `CompactHeap`: repack the first `count` tuples against the top of the page,
the highest first. -/
def compactHeap (count : Nat) : Except Fault BtreePage := do
  assertThat (decide (pg.heapOffset = db7PageSize)) "heap not set correctly"
  let indexes := (List.range count).insertionSort fun a b => pg.slot a ≥ pg.slot b
  indexes.foldlM lay.compactOne pg

/-- `FindInsertPosition`; on an inner page it asserts that no probe is equal. -/
def findInsertPosition (main : Key) : Except Fault Nat :=
  let cmp := fun i => cmpFull (lay.slotKey pg (pg.slot i)) main
  match lay with
  | leaf => .ok (partitionPoint (fun i => decide (cmp i < 0)) pg.count 0 pg.count)
  | inter =>
      match partitionPointNe cmp pg.count 0 pg.count with
      | some idx => .ok idx
      | none => .error (.assertion ("Somehow there are identical entries in the tree. " ++
          "That means same tuple was inserted twice"))

/-- `InsertSlot`. -/
def insertSlot (off : Nat) : Except Fault BtreePage := do
  let idx ← lay.findInsertPosition pg (lay.slotKey pg off)
  if headerSize + 2 * (pg.count + 1) ≤ pg.heapOffset then
    .ok { pg with slots := pg.slots.insertIdx idx off }
  else .error .overrun

/-- The loop of `FindSplitPoint` over the lengths that are left. -/
def splitLoop (count target : Nat) : (lens : List Nat) → (i accumulated : Nat) → Nat
  | [], _, _ => count - 1
  | len :: lens, i, accumulated =>
      if accumulated + len ≥ target then min (i + 1) (count - 1)
      else splitLoop count target lens (i + 1) (accumulated + len)

/-- `FindSplitPoint`. -/
def findSplitPoint : Except Fault Nat := do
  assertThat (decide (pg.count ≥ 2)) "cannot split fewer than two tuples"
  let lens := pg.slots.map (lay.slotLen pg)
  .ok (splitLoop pg.count (lens.sum / 2) lens 0 0)

/-- One round of the loop of `CopyHalfRight`. -/
def copyOne (left right : BtreePage) (off : Nat) : Except Fault BtreePage := do
  let (right', off') ← lay.appendHeap right (lay.slotKey left off) (lay.slotChild left off)
  .ok { right' with slots := right'.slots ++ [off'] }

/-- `CopyHalfRight`: the right page and `right_max`. -/
def copyHalfRight (left right : BtreePage) (split : Nat) : Except Fault (BtreePage × Nat) := do
  let (right, rightMax) ←
    if left.maxVal ≠ undefinedOffset then
      lay.appendHeap right (lay.slotKey left left.maxVal) (lay.slotChild left left.maxVal)
    else .ok (right, undefinedOffset)
  let right ← (left.slots.drop split).foldlM (lay.copyOne left) right
  .ok (right, rightMax)

/-- `HasSpace`. -/
def hasSpace (key : Key) : Bool :=
  lay.calculateHeapOffset pg.heapOffset key.length ≥ u16 ((pg.count + 1) * 2) + headerSize

/-- `HasSplit`. -/
def hasSplit (key : Key) : Bool :=
  pg.maxVal ≠ undefinedOffset ∧ cmpFull (lay.slotKey pg pg.maxVal) key ≤ 0

/-- `AppendHeap` and `InsertSlot`. -/
def insertTuple (key : Key) (child : Nat) : Except Fault BtreePage := do
  let (pg, off) ← lay.appendHeap pg key child
  lay.insertSlot pg off

/-- `Split` up to the insertion of the pending key: the left page, the right
page and the sentinel. -/
def halves (left right : BtreePage) (newPid : Nat) : Except Fault (BtreePage × BtreePage × Key) :=
  do
  assertThat (decide (right.heapOffset = db7PageSize)) "Heap must not be filled"
  let split ← lay.findSplitPoint left
  let (right, rightMax) ← lay.copyHalfRight left right split
  let left' ← lay.compactHeap { left with heapOffset := db7PageSize } split
  let sentinel := lay.slotKey right (right.slot 0)
  let (left', leftMax) ← lay.appendHeap left' sentinel (lay.slotChild right (right.slot 0))
  .ok ({ left' with rlink := newPid, slots := left'.slots.take split, maxVal := leftMax },
    { right with rlink := left'.rlink, maxVal := rightMax }, sentinel)

/-- `Split`: the left page, the right page and the sentinel. -/
def split (left right : BtreePage) (newPid : Nat) (key : Key) (child : Nat) :
    Except Fault (BtreePage × BtreePage × Key) := do
  let (left, right, sentinel) ← lay.halves left right newPid
  if cmpFull sentinel key ≤ 0 then
    assertThat (lay.hasSpace right key) "new key does not fit in right half after split"
    let right ← lay.insertTuple right key child
    .ok (left, right, sentinel)
  else
    assertThat (lay.hasSpace left key) "new key does not fit in left half after split"
    let left ← lay.insertTuple left key child
    .ok (left, right, sentinel)

end Layout

namespace BtreeVarlenLayoutLeaf

open Layout (leaf)

variable (pg : BtreePage) (key : Key)

/-- `HighPrefixCmp`. -/
def highPrefixCmp : Bool :=
  pg.maxVal ≠ undefinedOffset ∧ cmpPrefix (leaf.slotKey pg pg.maxVal) key = 0

/-- `Get`: the ids in this leaf, and whether to proceed to the right. -/
def get : List Nat × Bool :=
  let idx := partitionPoint (fun i => decide (cmpFull (leaf.slotKey pg (pg.slot i)) key < 0))
    pg.count 0 pg.count
  let hits := ((pg.slots.drop idx).map (leaf.slotKey pg)).takeWhile fun cur => cmpPrefix cur key = 0
  (hits.map result, highPrefixCmp pg key)

/-- `Insert`. -/
def insert : Except Fault BtreePage := do
  assertThat (decide (key.length < db7MaxRowSize)) "should be checked in the binder"
  leaf.insertTuple pg key 0

def hasSpace : Bool := leaf.hasSpace pg key

def hasSplit : Bool := leaf.hasSplit pg key

/-- `Split`. -/
def split (left right : BtreePage) (newPid : Nat) (key : Key) :
    Except Fault (BtreePage × BtreePage × Key) :=
  leaf.split left right newPid key 0

/-- `FindDeletePosition`. -/
def findDeletePosition : Nat :=
  searchEq (fun i => cmpFull (leaf.slotKey pg (pg.slot i)) key) pg.count 0 pg.count

/-- `Delete`: the slot goes, the record stays in the heap. Past the last slot
the code reads memory that is not a slot. -/
def delete : Except Fault BtreePage := do
  let idx := findDeletePosition pg key
  if idx < pg.count then
    assertThat (decide (cmpFull (leaf.slotKey pg (pg.slot idx)) key = 0))
      ("Unreachable. Key is not found. This should only be " ++
        "called by GC. GC tried to delete non existing value")
    .ok { pg with slots := pg.slots.eraseIdx idx }
  else .error .overrun

end BtreeVarlenLayoutLeaf

namespace BtreeVarlenLayoutIntermediate

open Layout (inter)

variable (pg : BtreePage) (key : Key)

/-- `FindChild`: the number of separators at or left of the key. -/
def findChild : Nat :=
  partitionPoint (fun i => decide (cmpFull (inter.slotKey pg (pg.slot i)) key ≤ 0))
    pg.count 0 pg.count

/-- `Get`. Without a separator at or left of the key the code reads in front of
the slots. -/
def get : Except Fault Nat :=
  if findChild pg key = 0 then .error .overrun
  else .ok (inter.slotChild pg (pg.slot (findChild pg key - 1)))

/-- `Insert`. -/
def insert (value : Nat) : Except Fault BtreePage := do
  assertThat (decide (key.length < db7MaxRowSize)) "should be checked in the binder"
  assertThat (decide (value ≠ 0)) "Can not insert 0 which is invalid page"
  inter.insertTuple pg key value

def hasSpace : Bool := inter.hasSpace pg key

def hasSplit : Bool := inter.hasSplit pg key

/-- `Split`. -/
def split (left right : BtreePage) (newPid : Nat) (key : Key) (value : Nat) :
    Except Fault (BtreePage × BtreePage × Key) :=
  inter.split left right newPid key value

/-- `CreateRoot`. -/
def createRoot (pid newPid : Nat) : Except Fault BtreePage := do
  let (pg, first) ← inter.appendHeap pg [] pid
  let pg := { pg with slots := [first] }
  let (pg, second) ← inter.appendHeap pg key newPid
  .ok { pg with slots := [first, second] }

end BtreeVarlenLayoutIntermediate

end Db7
