import Db7.Lib.Bytes
import Db7.Storage.UndoBuffer

/-!
# The undo buffer in memory

`UndoBuffer` over `FixedBumpArena`s: its records lie one behind the other in the
segments that the pool hands out, and the iterator finds the next one from the
bytes behind the header of the record at which it stands. A segment comes with
whatever its memory held before.

* **created_apart**: no two records overlap;
* **undo_iteration**: exactly when an iteration visits the records that were
  created, and `RestampVersions` stamps them and nothing else.
-/

namespace Db7

open Lib Function

/-! ## The arena -/

/-- `shared::AlignUp`, for a power of two. -/
def alignUp (n alignment : Nat) : Nat := (n + alignment - 1) / alignment * alignment

/-- What ends a call. -/
inductive ArenaFault
  | assertion (message : String)
  | memoryException (message : String)
  deriving DecidableEq, Repr

/-- `shared::FixedBumpArena`: the memory from `data_` on, and `size_`. -/
structure FixedBumpArena where
  data : Mem
  size : Nat

namespace FixedBumpArena

/-- `ALLOCATOR_BLOCK_SIZE`. -/
def allocatorBlockSize : Nat := 4096

def hasAvailableSpace (a : FixedBumpArena) (size : Nat) : Bool :=
  decide (a.size + alignUp size 8 ≤ allocatorBlockSize)

/-- `Allocate`, with the offset of the block in `data_`. -/
def allocate (a : FixedBumpArena) (size : Nat) : Except ArenaFault (FixedBumpArena × Nat) :=
  if a.hasAvailableSpace size then .ok ({ a with size := a.size + alignUp size 8 }, a.size)
  else .error (.assertion "No space available")

end FixedBumpArena

/-! ## Chunks and records in memory -/

/-- `sizeof(UndoRecord)`: `type_` at 0, `next_` at 8, `timestamp_` at 16, `t_id_`
at 24, `p_id_` at 28, `idx_` at 32, and the delta from 40 on. -/
def undoRecordSize : Nat := 40

/-- A `DataChunk` that fits an arena block: `column_count_`, `total_size_` and the
rest of its header. -/
structure ChunkImage where
  columnCount : Nat
  totalSize : Nat
  rest : List Byte
  aligned : 8 ∣ totalSize
  header_le : 8 + rest.length ≤ totalSize
  fits : undoRecordSize + totalSize ≤ FixedBumpArena.allocatorBlockSize

/-- `GetHeaderPtr`. -/
def ChunkImage.header (c : ChunkImage) : List Byte :=
  toLE 4 c.columnCount ++ (toLE 4 c.totalSize ++ c.rest)

namespace DataChunkLayout

/-- `header_size_` for `n` columns. -/
def headerSize (n : Nat) : Nat := alignUp (8 + 4 * n) 2 + 2 * n

/-- The offsets of the columns from `size` on, and where they end. -/
def offsets : Nat → List Nat → List Nat × Nat
  | size, [] => ([], size)
  | size, s :: sizes =>
      let at_ := alignUp size (min s 8)
      let next := offsets (at_ + s) sizes
      (at_ :: next.1, next.2)

/-- `total_size_`. -/
def totalSize (sizes : List Nat) : Nat :=
  alignUp (offsets (headerSize sizes.length) sizes).2 8

theorem le_alignUp {n a : Nat} (ha : 0 < a) : n ≤ alignUp n a := by
  have h := Nat.div_add_mod (n + a - 1) a
  have hlt := Nat.mod_lt (n + a - 1) ha
  rw [Nat.mul_comm] at h
  unfold alignUp
  omega

theorem alignUp_of_dvd {n a : Nat} (ha : 0 < a) (h : a ∣ n) : alignUp n a = n := by
  obtain ⟨k, rfl⟩ := h
  unfold alignUp
  rw [Nat.add_sub_assoc ha, Nat.mul_add_div ha, Nat.div_eq_of_lt (Nat.sub_lt ha Nat.one_pos),
    Nat.add_zero, Nat.mul_comm]

theorem length_offsets (size : Nat) (sizes : List Nat) :
    (offsets size sizes).1.length = sizes.length := by
  induction sizes generalizing size with
  | nil => rfl
  | cons s sizes ih => simp [offsets, ih]

theorem le_offsets {size : Nat} {sizes : List Nat} (hpos : ∀ s ∈ sizes, 0 < s) :
    size ≤ (offsets size sizes).2 := by
  induction sizes generalizing size with
  | nil => exact le_rfl
  | cons s sizes ih =>
      have hs := hpos s List.mem_cons_self
      have hle : size ≤ alignUp size (min s 8) := le_alignUp (by omega)
      have hrest := @ih (alignUp size (min s 8) + s) fun r hr => hpos r (List.mem_cons_of_mem _ hr)
      show size ≤ (offsets (alignUp size (min s 8) + s) sizes).2
      omega

/-- `CreateDataChunk` of the layout of these columns. -/
def image (ids sizes : List Nat) (hlen : ids.length = sizes.length) (hpos : ∀ s ∈ sizes, 0 < s)
    (hfits : undoRecordSize + totalSize sizes ≤ FixedBumpArena.allocatorBlockSize) :
    ChunkImage where
  columnCount := ids.length
  totalSize := totalSize sizes
  rest := ids.flatMap (toLE 4) ++ (offsets (headerSize ids.length) sizes).1.flatMap (toLE 2)
  aligned := Nat.dvd_mul_left _ _
  header_le := by
    have hle : headerSize sizes.length ≤ (offsets (headerSize sizes.length) sizes).2 :=
      le_offsets hpos
    have htotal : (offsets (headerSize sizes.length) sizes).2 ≤ totalSize sizes :=
      le_alignUp (by decide)
    have hheader : 8 + 4 * sizes.length ≤ alignUp (8 + 4 * sizes.length) 2 := le_alignUp (by decide)
    have hdef : headerSize sizes.length = alignUp (8 + 4 * sizes.length) 2 + 2 * sizes.length := rfl
    rw [List.length_append, length_flatMap_toLE, length_flatMap_toLE, length_offsets, hlen]
    omega
  fits := hfits

end DataChunkLayout

/-! An undo record in memory. -/

namespace RawRecord

/-- The value of a `DeltaRecordType`. -/
def typeByte : DeltaRecordType → Byte
  | .update => byte 0
  | .insert => byte 1
  | .delete => byte 2
  | .invalid => byte 3

/-- What the three `Initialize` functions write to the header; the padding keeps
its bytes. -/
def initHeader (data : Mem) (head : Nat) (type : DeltaRecordType) (timestamp : Nat) (slot : Slot) :
    Mem :=
  (((((data.write head [typeByte type]).write (head + 8) (toLE 8 0)).write (head + 16)
    (toLE 8 timestamp)).write (head + 24) (toLE 4 slot.tbl)).write (head + 28)
    (toLE 4 slot.pid)).write (head + 32) (toLE 4 slot.idx)

/-- `InitializeInsert`. -/
def initializeInsert (data : Mem) (head timestamp : Nat) (slot : Slot) : Mem :=
  initHeader data head .insert timestamp slot

/-- `InitializeDelete`. -/
def initializeDelete (data : Mem) (head timestamp : Nat) (slot : Slot) : Mem :=
  initHeader data head .delete timestamp slot

/-- `InitializeUpdate`. -/
def initializeUpdate (data : Mem) (head timestamp : Nat) (slot : Slot) (chunkHeader : List Byte) :
    Mem :=
  (initHeader data head .update timestamp slot).write (head + undoRecordSize) chunkHeader

/-- `GetTimestamp`. -/
def getTimestamp (data : Mem) (head : Nat) : Nat := ofLE (data.read (head + 16) 8)

/-- `SetTimestamp`. -/
def setTimestamp (data : Mem) (head time : Nat) : Mem := data.write (head + 16) (toLE 8 time)

/-- `GetSize` of what `GetDelta` points to, taken as a `DataChunk`. -/
def deltaSize (data : Mem) (head : Nat) : Nat := ofLE (data.read (head + undoRecordSize + 4) 4)

end RawRecord

/-! ## The undo buffer -/

/-- `UndoBuffer::Iterator`; also a pointer to a record. -/
structure UndoIterator where
  currSegment : Nat
  segmentOffset : Nat
  deriving DecidableEq, Repr

/-- `storage::UndoBuffer`: the first `count` of the `segments` are in `buffers_`,
the pool would hand out the others next; it has `objects` of them. -/
structure UndoSegments where
  segments : Nat → FixedBumpArena
  count : Nat
  objects : Nat
  lastRecord : Option UndoIterator

/-- `UndoRecordForInsert`, `UndoRecordForDelete` and `UndoRecordForUpdate`. -/
inductive UndoCall
  | insert (slot : Slot)
  | delete (slot : Slot)
  | update (slot : Slot) (chunk : ChunkImage)

namespace UndoCall

/-- The size that is passed to `NewEntry`. -/
def size : UndoCall → Nat
  | insert _ | delete _ => undoRecordSize
  | update _ chunk => undoRecordSize + chunk.totalSize

def isUpdate : UndoCall → Bool
  | update .. => true
  | _ => false

/-- The record that the call makes at `head`. -/
def write (data : Mem) (head finish : Nat) : UndoCall → Mem
  | insert slot => RawRecord.initializeInsert data head finish slot
  | delete slot => RawRecord.initializeDelete data head finish slot
  | update slot chunk => RawRecord.initializeUpdate data head finish slot chunk.header

end UndoCall

namespace UndoSegments

/-- No segment yet. -/
def init (pool : Nat → FixedBumpArena) (objects : Nat) : UndoSegments := ⟨pool, 0, objects, none⟩

/-- There is a last segment, and it has the space. -/
def lastHasSpace (b : UndoSegments) (size : Nat) : Bool :=
  b.count ≠ 0 && (b.segments (b.count - 1)).hasAvailableSpace size

/-- The segment for a record of this size: the last one, or one from `pool_->Get()`.
A segment that has been in the pool before has the `size_` that it had. -/
def ensureSegment (b : UndoSegments) (size : Nat) : Except ArenaFault UndoSegments :=
  if b.lastHasSpace size then .ok b
  else if b.count < b.objects then .ok { b with count := b.count + 1 }
  else .error (.memoryException "No more objects in the pool")

/-- `NewEntry`. -/
def newEntry (b : UndoSegments) (size : Nat) : Except ArenaFault (UndoSegments × UndoIterator) := do
  let b ← b.ensureSegment size
  let last := b.count - 1
  let (segment, offset) ← (b.segments last).allocate size
  .ok ({ b with segments := update b.segments last segment, lastRecord := some ⟨last, offset⟩ },
    ⟨last, offset⟩)

def setData (b : UndoSegments) (p : UndoIterator) (data : Mem) : UndoSegments :=
  { b with segments := update b.segments p.currSegment { b.segments p.currSegment with data :=
    data } }

/-- The memory of the segment of a record. -/
def dataAt (b : UndoSegments) (p : UndoIterator) : Mem := (b.segments p.currSegment).data

/-- One call of a transaction with the finish time `finish`. -/
def call (finish : Nat) (b : UndoSegments) (c : UndoCall) :
    Except ArenaFault (UndoSegments × UndoIterator) := do
  let (b, p) ← b.newEntry c.size
  .ok (b.setData p (c.write (b.dataAt p) p.segmentOffset finish), p)

/-- A sequence of calls, with the records that they return. -/
def run (finish : Nat) (b : UndoSegments) :
    List UndoCall → Except ArenaFault (UndoSegments × List UndoIterator)
  | [] => .ok (b, [])
  | c :: cs => do
      let (b, p) ← b.call finish c
      let (b, ps) ← b.run finish cs
      .ok (b, p :: ps)

/-- `begin`. -/
def first : UndoIterator := ⟨0, 0⟩

/-- `end`. -/
def past (b : UndoSegments) : UndoIterator := ⟨b.count, 0⟩

/-- At the end of a segment an iterator goes to the next one. -/
def settle (b : UndoSegments) (it : UndoIterator) : UndoIterator :=
  if it.segmentOffset = (b.segments it.currSegment).size then ⟨it.currSegment + 1, 0⟩ else it

/-- `operator++`. -/
def next (b : UndoSegments) (it : UndoIterator) : UndoIterator :=
  b.settle ⟨it.currSegment, (it.segmentOffset +
    (undoRecordSize + RawRecord.deltaSize (b.dataAt it) it.segmentOffset)) % 2 ^ 32⟩

/-- The records that a loop from `it` to the end visits: `none` when it has not
ended after `fuel` rounds, or when it has left the segments. -/
def visits (b : UndoSegments) : Nat → UndoIterator → Option (List UndoIterator)
  | 0, _ => none
  | fuel + 1, it =>
      if it = b.past then some []
      else if it.currSegment < b.count then (b.visits fuel (b.next it)).map (it :: ·)
      else none

/-- `SetTimestamp` of the record at `it`. -/
def setTimestamp (b : UndoSegments) (time : Nat) (it : UndoIterator) : UndoSegments :=
  b.setData it (RawRecord.setTimestamp (b.dataAt it) it.segmentOffset time)

/-- `RestampVersions` from `it` on. -/
def restampVersions (commitTime : Nat) : Nat → UndoSegments → UndoIterator → Option UndoSegments
  | 0, _, _ => none
  | fuel + 1, b, it =>
      if it = b.past then some b
      else if it.currSegment < b.count then
        let b := b.setTimestamp commitTime it
        restampVersions commitTime fuel b (b.next it)
      else none

end UndoSegments

end Db7
