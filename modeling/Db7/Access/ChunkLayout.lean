import Db7.Storage.PaxLayout

/-!
# A chunk in memory

`DataChunkLayout` builds the header of a chunk: the column count, the size, the ids and the offset
of each column. `CreateDataChunk` copies it to where the chunk shall be, and the `DataChunk` there
finds ids, offsets and fields again from its own address and the count.

* **construction** (`header_eq`): the header that is built, where the offsets fit;
* **position** (`offsetsPtr_eq`): the address at which the offsets are found, for an aligned chunk;
* **result** (`chunk_fields`): what is found is what was built, and each field keeps what is written
  to it, through all three ways to it.
-/

namespace Db7

open Lib

/-- `SIZE_PART`. -/
def sizePart : Nat := 8

/-- `COLUMN_IDS_START`. -/
def columnIdsStart : Nat := alignUp sizePart 4

theorem columnIdsStart_eq : columnIdsStart = 8 := rfl

/-! ## The layout -/

/-- `access::DataChunkLayout`, with the bytes at `header_underlying_`. -/
structure RawLayout where
  columnCount : UInt32
  totalSize : UInt32
  headerSize : UInt32
  header : Mem

namespace RawLayout

/-- The loop over `attr_sizes`: `total_size_` and the header after it. An offset is stored as a
`u16`. -/
def placeColumns (offsets : Nat) (i totalSize : UInt32) (header : Mem) : List UInt16 → UInt32 × Mem
  | [] => (totalSize, header)
  | size :: attrSizes =>
      let unit := if 8 < size then 8 else size
      let totalSize := UInt32.ofNat (alignUp totalSize.toNat unit.toNat)
      placeColumns offsets (i + 1) (totalSize + size.toUInt32)
        (header.write (offsets + 2 * i.toNat) (toLE 2 totalSize.toNat)) attrSizes

/-- `offsets_` for this many columns. -/
def offsetsStart (count : Nat) : UInt32 :=
  let headerSize := UInt32.ofNat (columnIdsStart + 4 * count)
  UInt32.ofNat (alignUp headerSize.toNat 2)

/-- The header before the loop: column count and ids. -/
def idsHeader (fresh : Mem) (colIds : List UInt32) : Mem :=
  (fresh.write 0 (toLE 4 colIds.length)).write columnIdsStart
    ((colIds.map UInt32.toNat).flatMap (toLE 4))

/-- The constructor; `fresh` is what `new byte[header_size_]` holds. -/
def ofColumns (fresh : Mem) (colIds : List UInt32) (attrSizes : List UInt16) : RawLayout :=
  let offsets := offsetsStart colIds.length
  let headerSize := UInt32.ofNat (offsets.toNat + 2 * colIds.length)
  let placed := placeColumns offsets.toNat 0 headerSize (idsHeader fresh colIds) attrSizes
  let totalSize := UInt32.ofNat (alignUp placed.1.toNat 8)
  { columnCount := UInt32.ofNat colIds.length
    totalSize := totalSize
    headerSize := headerSize
    header := placed.2.write 4 (toLE 4 totalSize.toNat) }

/-- `CreateDataChunk`, at `dest` or at what `new byte[total_size_]` returns. -/
def createDataChunk (layout : RawLayout) (m : Mem) (dest : Nat) : Mem :=
  m.write dest (layout.header.read 0 layout.headerSize.toNat)

end RawLayout

/-! ## The chunk -/

/-- `DataChunk::Iterator`. -/
structure ChunkIterator where
  idx : UInt32
  dataPtr : Nat
  offsets : Nat

/-! `access::DataChunk`: the functions of a chunk at the address `chunk`. -/

namespace RawChunk

/-- `column_count_`. -/
def columnCount (m : Mem) (chunk : Nat) : UInt32 := UInt32.ofNat (ofLE (m.read chunk 4))

/-- `total_size_`. -/
def totalSize (m : Mem) (chunk : Nat) : UInt32 := UInt32.ofNat (ofLE (m.read (chunk + 4) 4))

/-- `GetColumnIdsPtr`. -/
def columnIdsPtr (chunk : Nat) : Nat := chunk + columnIdsStart

/-- `GetOffsetsPtr`. -/
def offsetsPtr (m : Mem) (chunk : Nat) : Nat :=
  alignUp (columnIdsPtr chunk + 4 * (columnCount m chunk).toNat) 4

/-- `GetDataPtr`. -/
def dataPtr (m : Mem) (chunk : Nat) : Nat := offsetsPtr m chunk + 2 * (columnCount m chunk).toNat

/-- `GetHeaderSize`. -/
def headerSize (m : Mem) (chunk : Nat) : UInt32 := UInt32.ofNat (dataPtr m chunk - chunk)

/-- `GetColumnIds`. -/
def columnIds (m : Mem) (chunk : Nat) : List UInt32 :=
  (List.range (columnCount m chunk).toNat).map fun i =>
    UInt32.ofNat (ofLE (m.read (columnIdsPtr chunk + 4 * i) 4))

/-- `offsets[idx]`. -/
def offsetAt (m : Mem) (offsets idx : Nat) : Nat := ofLE (m.read (offsets + 2 * idx) 2)

/-- `Access`. -/
def access (m : Mem) (chunk idx : Nat) : Nat := chunk + offsetAt m (offsetsPtr m chunk) idx

/-- `Get`. -/
def get (m : Mem) (chunk : Nat) (oid : UInt32) : Except String Nat :=
  match (columnIds m chunk).idxOf? oid with
  | some idx => .ok (access m chunk idx)
  | none => .error "Tried to access invalid column"

/-- `Write`, of a span or of the bytes of a value. -/
def write (m : Mem) (chunk : Nat) (oid : UInt32) (newData : List Byte) : Mem :=
  match (columnIds m chunk).idxOf? oid with
  | some idx => m.write (access m chunk idx) newData
  | none => m

/-- `InitIterator`. -/
def initIterator (m : Mem) (chunk : Nat) : ChunkIterator := ⟨0, chunk, offsetsPtr m chunk⟩

end RawChunk

namespace ChunkIterator

/-- Where the current field starts. -/
def field (m : Mem) (it : ChunkIterator) : Nat :=
  it.dataPtr + RawChunk.offsetAt m it.offsets it.idx.toNat

def advance (it : ChunkIterator) : ChunkIterator := { it with idx := it.idx + 1 }

/-- `PushBack` of a span. -/
def pushBack (m : Mem) (it : ChunkIterator) (newData : List Byte) : Mem × ChunkIterator :=
  (m.write (it.field m) newData, it.advance)

/-- `PushBack` of a value of a type with this alignment. -/
def pushBackValue (m : Mem) (it : ChunkIterator) (alignof : Nat) (newData : List Byte) :
    Except String (Mem × ChunkIterator) :=
  if it.field m % alignof = 0 then .ok (it.pushBack m newData) else .error "unaligned write"

/-- `Next`. -/
def next (m : Mem) (it : ChunkIterator) : Nat × ChunkIterator := (it.field m, it.advance)

end ChunkIterator

/-! ## Fields -/

/-- A field of a chunk: its column, and where it lies. -/
structure ChunkField where
  oid : UInt32
  size : UInt16
  offset : Nat

namespace ChunkField

/-- As a column with one row. -/
def column (f : ChunkField) : Lib.Column := ⟨f.offset, f.size.toNat⟩

/-- The unit to which the field is aligned. -/
def alignment (f : ChunkField) : Nat := min f.size.toNat 8

end ChunkField

/-- The columns of a chunk: oid and size. -/
abbrev ChunkColumns := List (UInt32 × UInt16)

namespace ChunkColumns

def ids (columns : ChunkColumns) : List UInt32 := columns.map Prod.fst

def sizes (columns : ChunkColumns) : List UInt16 := columns.map Prod.snd

/-- Bytes in each field. -/
def widths (columns : ChunkColumns) : List Nat := columns.sizes.map UInt16.toNat

/-- The fields from an offset on. -/
def fieldsFrom : Nat → ChunkColumns → List ChunkField
  | _, [] => []
  | start, column :: columns =>
      let offset := alignUp start (min column.2.toNat 8)
      ⟨column.1, column.2, offset⟩ :: fieldsFrom (offset + column.2.toNat) columns

/-- The fields of a chunk with these columns. -/
def fields (columns : ChunkColumns) : List ChunkField :=
  fieldsFrom (DataChunkLayout.headerSize columns.length) columns

/-- The size of a chunk with these columns. -/
def totalSize (columns : ChunkColumns) : Nat := DataChunkLayout.totalSize columns.widths

variable {columns : ChunkColumns}

theorem length_widths (columns : ChunkColumns) : columns.widths.length = columns.length := by
  unfold widths sizes
  rw [List.length_map, List.length_map]

theorem map_offset_fieldsFrom (start : Nat) (columns : ChunkColumns) :
    (fieldsFrom start columns).map ChunkField.offset =
      (DataChunkLayout.offsets start columns.widths).1 := by
  induction columns generalizing start with
  | nil => rfl
  | cons column columns ih => exact congrArg (_ :: ·) (ih _)

theorem map_fieldsFrom (start : Nat) (columns : ChunkColumns) :
    (fieldsFrom start columns).map (fun f => (f.oid, f.size)) = columns := by
  induction columns generalizing start with
  | nil => rfl
  | cons column columns ih => exact congrArg (_ :: ·) (ih _)

theorem map_offset_fields (columns : ChunkColumns) :
    columns.fields.map ChunkField.offset =
      (DataChunkLayout.offsets (DataChunkLayout.headerSize columns.length) columns.widths).1 :=
  map_offset_fieldsFrom ..

theorem length_fields (columns : ChunkColumns) : columns.fields.length = columns.length := by
  have hlen :=
    congrArg List.length (map_fieldsFrom (DataChunkLayout.headerSize columns.length) columns)
  rw [List.length_map] at hlen
  exact hlen

/-- The sizes are sizes of types. -/
def Typed (columns : ChunkColumns) : Prop := ∀ column ∈ columns, PaxLayout.TypeSize column.2

theorem Typed.tail {column : UInt32 × UInt16} (h : Typed (column :: columns)) : columns.Typed :=
  fun c hc => h c (List.mem_cons_of_mem _ hc)

theorem Typed.pos (h : columns.Typed) : ∀ w ∈ columns.widths, 0 < w := by
  intro w hw
  unfold widths sizes at hw
  rw [List.map_map] at hw
  obtain ⟨column, hcolumn, rfl⟩ := List.mem_map.mp hw
  exact (h column hcolumn).pos

/-- The fields lie in turn up to where the last one ends, and each is aligned. -/
theorem Typed.inTurn (h : columns.Typed) (start : Nat) {last : Nat}
    (hlast : (DataChunkLayout.offsets start columns.widths).2 ≤ last) :
    Lib.Column.InTurn 1 start last ((fieldsFrom start columns).map ChunkField.column) ∧
      ∀ f ∈ fieldsFrom start columns, f.alignment ∣ f.offset := by
  induction columns generalizing start with
  | nil => exact ⟨.nil, fun f hf => absurd hf List.not_mem_nil⟩
  | cons column columns ih =>
      have hpos := (h column List.mem_cons_self).pos
      have hlow : start ≤ alignUp start (min column.2.toNat 8) :=
        DataChunkLayout.le_alignUp (by omega)
      have hrest : alignUp start (min column.2.toNat 8) + column.2.toNat ≤
          (DataChunkLayout.offsets (alignUp start (min column.2.toNat 8) + column.2.toNat)
            (widths columns)).2 :=
        DataChunkLayout.le_offsets h.tail.pos
      have hstop : Lib.Column.stop ⟨alignUp start (min column.2.toNat 8), column.2.toNat⟩ 1 =
          alignUp start (min column.2.toNat 8) + column.2.toNat := by
        show _ + 1 * _ = _
        rw [Nat.one_mul]
      obtain ⟨hturn, haligned⟩ :=
        ih h.tail (alignUp start (min column.2.toNat 8) + column.2.toNat) hlast
      constructor
      · show Lib.Column.InTurn 1 start last
          (Lib.Column.mk (alignUp start (min column.2.toNat 8)) column.2.toNat :: _)
        apply Lib.Column.InTurn.cons hlow
        · rw [hstop]
          exact Nat.le_trans hrest hlast
        · rw [hstop]
          exact hturn
      · intro f hf
        rcases List.mem_cons.mp hf with rfl | hf
        · exact Nat.dvd_mul_left _ _
        · exact haligned f hf

end ChunkColumns

/-! ## The header that is built -/

/-- The bytes of the header of a chunk with these columns. -/
def ChunkColumns.header (columns : ChunkColumns) : List Byte :=
  toLE 4 columns.length ++ (toLE 4 columns.totalSize ++
    ((columns.ids.map UInt32.toNat).flatMap
      (toLE 4) ++ (columns.fields.map ChunkField.offset).flatMap (toLE 2)))

section Built

variable {columns : ChunkColumns}

theorem headerSize_eq (n : Nat) : DataChunkLayout.headerSize n = 8 + 6 * n := by
  unfold DataChunkLayout.headerSize
  rw [DataChunkLayout.alignUp_of_dvd (by decide) (by omega)]
  omega

theorem ChunkColumns.Typed.headerSize_le (h : columns.Typed) :
    DataChunkLayout.headerSize columns.length ≤
      (DataChunkLayout.offsets (DataChunkLayout.headerSize columns.length) columns.widths).2 :=
  DataChunkLayout.le_offsets h.pos

theorem ChunkColumns.offsets_le_totalSize (columns : ChunkColumns) :
    (DataChunkLayout.offsets (DataChunkLayout.headerSize columns.length) columns.widths).2 ≤
      columns.totalSize := by
  unfold ChunkColumns.totalSize DataChunkLayout.totalSize
  rw [columns.length_widths]
  exact DataChunkLayout.le_alignUp (by decide)

/-- The header has room in the chunk. -/
theorem ChunkColumns.Typed.header_le (h : columns.Typed) :
    8 + 6 * columns.length ≤ columns.totalSize := by
  have hheader := Nat.le_trans h.headerSize_le columns.offsets_le_totalSize
  rw [headerSize_eq] at hheader
  exact hheader

/-- The loop stores the offsets, if none of its sums wraps. -/
theorem placeColumns_eq (h : columns.Typed) (offsets : Nat) (i total : UInt32) (header : Mem)
    (hsize : (DataChunkLayout.offsets total.toNat columns.widths).2 < 2 ^ 32)
    (hi : i.toNat + columns.length < 2 ^ 32) :
    (RawLayout.placeColumns offsets i total header columns.sizes).1.toNat =
      (DataChunkLayout.offsets total.toNat columns.widths).2 ∧
      (RawLayout.placeColumns offsets i total header columns.sizes).2 =
        header.write (offsets + 2 * i.toNat)
        ((DataChunkLayout.offsets total.toNat columns.widths).1.flatMap (toLE 2)) := by
  induction columns generalizing i total header with
  | nil => exact ⟨rfl, Mem.write_nil.symm⟩
  | cons column columns ih =>
      have hunit :
          (if 8 < column.2 then 8 else column.2 : UInt16).toNat = min column.2.toNat 8 := by
        have htyped := h column List.mem_cons_self
        simp only [PaxLayout.TypeSize, List.mem_cons, List.not_mem_nil, or_false] at htyped
        rcases htyped with heq | heq | heq | heq | heq <;> rw [heq] <;> rfl
      have hrest : alignUp total.toNat (min column.2.toNat 8) + column.2.toNat ≤
          (DataChunkLayout.offsets (alignUp total.toNat (min column.2.toNat 8) + column.2.toNat)
            (ChunkColumns.widths columns)).2 :=
        DataChunkLayout.le_offsets h.tail.pos
      change (DataChunkLayout.offsets (alignUp total.toNat (min column.2.toNat 8) + column.2.toNat)
        (ChunkColumns.widths columns)).2 <
        4294967296 at hsize
      rw [List.length_cons] at hi
      have hoffset :
          (UInt32.ofNat (alignUp total.toNat (if 8 < column.2 then 8 else column.2).toNat)).toNat =
          alignUp total.toNat (min column.2.toNat 8) := by
        rw [hunit]
        exact UInt32.toNat_ofNat_of_lt' (by show _ < 4294967296; omega)
      have hnext :
          (UInt32.ofNat (alignUp total.toNat (if 8 < column.2 then 8 else column.2).toNat) +
            column.2.toUInt32).toNat =
          alignUp total.toNat (min column.2.toNat 8) + column.2.toNat := by
        rw [UInt32.toNat_add, hoffset]
        exact Nat.mod_eq_of_lt (by show _ < 4294967296; exact Nat.lt_of_le_of_lt hrest hsize)
      have hsucc : (i + 1).toNat = i.toNat + 1 := by
        rw [UInt32.toNat_add]
        exact Nat.mod_eq_of_lt (by show i.toNat + 1 < 4294967296; omega)
      have hstep :=
        ih h.tail (i + 1)
          (UInt32.ofNat (alignUp total.toNat (if 8 < column.2 then 8 else column.2).toNat) +
            column.2.toUInt32)
        (header.write (offsets + 2 * i.toNat)
          (toLE 2
            (UInt32.ofNat
              (alignUp total.toNat (if 8 < column.2 then 8 else column.2).toNat)).toNat))
        (by rw [hnext]; exact hsize) (by rw [hsucc]; omega)
      rw [hnext, hsucc] at hstep
      constructor
      · exact hstep.1
      · show (RawLayout.placeColumns offsets (i + 1) _ _ (ChunkColumns.sizes columns)).2 =
          header.write _ (List.flatMap (toLE 2) (alignUp total.toNat (min column.2.toNat 8) ::
            (DataChunkLayout.offsets (alignUp total.toNat (min column.2.toNat 8) + column.2.toNat)
              (ChunkColumns.widths columns)).1))
        rw [hstep.2, List.flatMap_cons, Mem.write_append, length_toLE, hoffset,
          Nat.mul_succ, Nat.add_assoc]

/-- The sizes are sizes of types, and offsets in the chunk fit in a `u16`. -/
structure ChunkColumns.Fits (columns : ChunkColumns) : Prop where
  typed : columns.Typed
  small : columns.totalSize < 2 ^ 16

/-- The layout of these columns. -/
abbrev ChunkColumns.layout (columns : ChunkColumns) (fresh : Mem) : RawLayout :=
  RawLayout.ofColumns fresh columns.ids columns.sizes

theorem ChunkColumns.length_ids (columns : ChunkColumns) : columns.ids.length = columns.length :=
  List.length_map _

theorem ChunkColumns.length_idBytes (columns : ChunkColumns) :
    ((columns.ids.map UInt32.toNat).flatMap (toLE 4)).length = 4 * columns.length := by
  rw [length_flatMap_toLE, List.length_map, columns.length_ids]

theorem ChunkColumns.length_offsetBytes (columns : ChunkColumns) :
    ((columns.fields.map ChunkField.offset).flatMap (toLE 2)).length = 2 * columns.length := by
  rw [length_flatMap_toLE, List.length_map, columns.length_fields]

namespace ChunkColumns.Fits

variable (h : columns.Fits) (fresh : Mem)

include h

theorem length_lt : columns.length < 10922 := by
  have hheader := h.typed.header_le
  have hsmall := h.small
  omega

theorem toNat_offsetsStart :
    (RawLayout.offsetsStart columns.ids.length).toNat = 8 + 4 * columns.length := by
  have hn := h.length_lt
  have hids : (UInt32.ofNat (8 + 4 * columns.length)).toNat = 8 + 4 * columns.length :=
    UInt32.toNat_ofNat_of_lt' (by show _ < 4294967296; omega)
  rw [columns.length_ids]
  show (UInt32.ofNat (alignUp (UInt32.ofNat (8 + 4 * columns.length)).toNat 2)).toNat = _
  rw [hids, DataChunkLayout.alignUp_of_dvd (by decide) (by omega), hids]

theorem toNat_headerSize : (columns.layout fresh).headerSize.toNat = 8 + 6 * columns.length := by
  have hn := h.length_lt
  show (UInt32.ofNat
    ((RawLayout.offsetsStart columns.ids.length).toNat + 2 * columns.ids.length)).toNat = _
  rw [h.toNat_offsetsStart, columns.length_ids]
  rw [UInt32.toNat_ofNat_of_lt' (by show _ < 4294967296; omega)]
  omega

/-- What the loop leaves. -/
theorem placed_eq (header : Mem) :
    (RawLayout.placeColumns (8 + 4 * columns.length) 0 (columns.layout fresh).headerSize header
      columns.sizes).1.toNat =
        (DataChunkLayout.offsets (DataChunkLayout.headerSize columns.length) columns.widths).2 ∧
      (RawLayout.placeColumns (8 + 4 * columns.length) 0 (columns.layout fresh).headerSize header
        columns.sizes).2 =
        header.write (8 + 4 * columns.length)
        ((columns.fields.map ChunkField.offset).flatMap (toLE 2)) := by
  have hheader :
      (columns.layout fresh).headerSize.toNat = DataChunkLayout.headerSize columns.length := by
    rw [h.toNat_headerSize, headerSize_eq]
  have hlast := Nat.lt_of_le_of_lt columns.offsets_le_totalSize h.small
  have hn := h.length_lt
  have hplaced :=
    placeColumns_eq h.typed (8 + 4 * columns.length) 0 (columns.layout fresh).headerSize header
    (by rw [hheader]; omega) (by show 0 + _ < _; omega)
  rw [hheader] at hplaced
  rw [columns.map_offset_fields]
  exact hplaced

theorem toNat_totalSize : (columns.layout fresh).totalSize.toNat = columns.totalSize := by
  have hsmall := h.small
  have htotal : columns.totalSize =
      alignUp (DataChunkLayout.offsets (DataChunkLayout.headerSize columns.length)
        columns.widths).2 8 := by
    unfold ChunkColumns.totalSize DataChunkLayout.totalSize
    rw [columns.length_widths]
  show (UInt32.ofNat
    (alignUp (RawLayout.placeColumns (RawLayout.offsetsStart columns.ids.length).toNat 0
    (columns.layout fresh).headerSize (RawLayout.idsHeader fresh columns.ids)
      columns.sizes).1.toNat 8)).toNat = _
  rw [h.toNat_offsetsStart, (h.placed_eq fresh _).1, ← htotal]
  exact UInt32.toNat_ofNat_of_lt' (by show _ < 4294967296; omega)

/-- The four writes to the header. -/
theorem header_writes :
    (columns.layout fresh).header =
      (((fresh.write 0 (toLE 4 columns.length)).write 8
        ((columns.ids.map UInt32.toNat).flatMap (toLE 4))).write
        (8 + 4 * columns.length) ((columns.fields.map ChunkField.offset).flatMap (toLE 2))).write 4
          (toLE 4 columns.totalSize) := by
  rw [← h.toNat_totalSize fresh]
  show (RawLayout.placeColumns (RawLayout.offsetsStart columns.ids.length).toNat 0
    (columns.layout fresh).headerSize
    (RawLayout.idsHeader fresh columns.ids) columns.sizes).2.write 4
      (toLE 4 (columns.layout fresh).totalSize.toNat) = _
  rw [h.toNat_offsetsStart, (h.placed_eq fresh _).2]
  unfold RawLayout.idsHeader
  rw [columns.length_ids]
  rfl

/-- The header that the constructor builds. -/
theorem header_eq : (columns.layout fresh).header.read 0 (columns.layout fresh).headerSize.toNat =
      columns.header := by
  have hids := columns.length_idBytes
  have hoffsets := columns.length_offsetBytes
  have hn := length_toLE 4 columns.length
  have htotal := length_toLE 4 columns.totalSize
  have hsize : 8 + 6 * columns.length = 4 + (4 + (4 * columns.length + 2 * columns.length)) := by
    omega
  rw [h.toNat_headerSize, h.header_writes, hsize, Mem.read_add, Mem.read_add, Mem.read_add]
  unfold ChunkColumns.header
  generalize toLE 4 columns.length = count at hn ⊢
  generalize toLE 4 columns.totalSize = total at htotal ⊢
  generalize (columns.ids.map UInt32.toNat).flatMap (toLE 4) = ids at hids ⊢
  generalize (columns.fields.map ChunkField.offset).flatMap (toLE 2) = offsets at hoffsets ⊢
  congr 1
  · -- the count lies below the three other writes
    rw [Mem.read_write_of_disjoint (by omega), Mem.read_write_of_disjoint (by omega),
      Mem.read_write_of_disjoint (by omega)]
    exact Mem.read_write_of_length hn
  congr 1
  · exact Mem.read_write_of_length htotal
  congr 1
  · rw [Mem.read_write_of_disjoint (by omega), Mem.read_write_of_disjoint (by omega)]
    exact Mem.read_write_of_length hids
  · rw [Mem.read_write_of_disjoint (by omega)]
    exact Mem.read_write_of_length hoffsets

end ChunkColumns.Fits

end Built

/-! ## What a chunk finds -/

/-- The header of the chunk is the one that the layout has built. -/
def RawChunk.Has (layout : RawLayout) (m : Mem) (chunk : Nat) : Prop :=
  m.read chunk layout.headerSize.toNat = layout.header.read 0 layout.headerSize.toNat

theorem has_createDataChunk (layout : RawLayout) (m : Mem) (chunk : Nat) :
    RawChunk.Has layout (layout.createDataChunk m chunk) chunk :=
  Mem.read_write_of_length Mem.length_read

/-- A write behind the header keeps it. -/
theorem RawChunk.Has.write {layout : RawLayout} {m : Mem} {chunk at_ : Nat} {value : List Byte}
    (h : RawChunk.Has layout m chunk) (hbehind : chunk + layout.headerSize.toNat ≤ at_) :
    RawChunk.Has layout (m.write at_ value) chunk := by
  unfold RawChunk.Has
  rw [Mem.read_write_of_disjoint (by omega)]
  exact h

/-- The parts of the header, in memory. -/
structure RawChunk.Header (columns : ChunkColumns) (m : Mem) (chunk : Nat) : Prop where
  count : m.read chunk 4 = toLE 4 columns.length
  total : m.read (chunk + 4) 4 = toLE 4 columns.totalSize
  ids : m.read (chunk + 8) (4 * columns.length) = (columns.ids.map UInt32.toNat).flatMap (toLE 4)
  offsets : m.read (chunk + 8 + 4 * columns.length) (2 * columns.length) =
    (columns.fields.map ChunkField.offset).flatMap (toLE 2)

section Found

variable {columns : ChunkColumns} {fresh m : Mem} {chunk : Nat}

theorem RawChunk.Has.header (h : columns.Fits)
    (hhas : RawChunk.Has (columns.layout fresh) m chunk) :
    RawChunk.Header columns m chunk := by
  unfold RawChunk.Has at hhas
  have hsize : 8 + 6 * columns.length = 4 + (4 + (4 * columns.length + 2 * columns.length)) := by
    omega
  rw [h.header_eq, h.toNat_headerSize, hsize, Mem.read_add, Mem.read_add, Mem.read_add] at hhas
  have hcount := List.append_inj hhas (by rw [Mem.length_read, length_toLE])
  have htotal := List.append_inj hcount.2 (by rw [Mem.length_read, length_toLE])
  have hids := List.append_inj htotal.2 (by rw [Mem.length_read, columns.length_idBytes])
  exact ⟨hcount.1, htotal.1, hids.1, hids.2⟩

namespace RawChunk.Header

variable (hheader : RawChunk.Header columns m chunk) (h : columns.Fits)

include hheader h

theorem toNat_columnCount : (RawChunk.columnCount m chunk).toNat = columns.length := by
  have hn := h.length_lt
  unfold RawChunk.columnCount
  rw [hheader.count, ofLE_toLE, Nat.mod_eq_of_lt (by show _ < 4294967296; omega)]
  exact UInt32.toNat_ofNat_of_lt' (by show _ < 4294967296; omega)

/-- The accessor rounds an address up, the layout rounded an offset: the same, as the chunk is
aligned. -/
theorem offsetsPtr_eq (haligned : 8 ∣ chunk) :
    RawChunk.offsetsPtr m chunk = chunk + 8 + 4 * columns.length := by
  unfold RawChunk.offsetsPtr RawChunk.columnIdsPtr
  rw [hheader.toNat_columnCount h, columnIdsStart_eq]
  exact DataChunkLayout.alignUp_of_dvd (by decide) (by omega)

theorem toNat_headerSize (haligned : 8 ∣ chunk) :
    (RawChunk.headerSize m chunk).toNat = 8 + 6 * columns.length := by
  have hn := h.length_lt
  unfold RawChunk.headerSize RawChunk.dataPtr
  rw [hheader.offsetsPtr_eq h haligned, hheader.toNat_columnCount h]
  rw [UInt32.toNat_ofNat_of_lt' (by show _ < 4294967296; omega)]
  omega

theorem toNat_totalSize : (RawChunk.totalSize m chunk).toNat = columns.totalSize := by
  have hsmall := h.small
  unfold RawChunk.totalSize
  rw [hheader.total, ofLE_toLE, Nat.mod_eq_of_lt (by show _ < 4294967296; omega)]
  exact UInt32.toNat_ofNat_of_lt' (by show _ < 4294967296; omega)

theorem columnIds_eq : RawChunk.columnIds m chunk = columns.ids := by
  have hlen : (columns.ids.map UInt32.toNat).length = columns.length := by
    rw [List.length_map, columns.length_ids]
  unfold RawChunk.columnIds RawChunk.columnIdsPtr
  rw [hheader.toNat_columnCount h, columnIdsStart_eq]
  apply List.ext_getElem
  · rw [List.length_map, List.length_range, columns.length_ids]
  · intro i _ hids
    have hentry :=
      Mem.read_entry (by rw [hlen]; exact hheader.ids) (i := i)
        (by rw [List.length_map]; exact hids)
    have hid : columns.ids[i].toNat < 256 ^ 4 := UInt32.toNat_lt _
    rw [List.getElem_map, List.getElem_range, hentry, List.getElem_map, ofLE_toLE,
      Nat.mod_eq_of_lt hid]
    exact UInt32.ofNat_toNat

end RawChunk.Header

/-! ## Fields of a chunk -/

/-- The index of a column. -/
abbrev ChunkColumns.Idx (columns : ChunkColumns) : Type := Fin columns.fields.length

variable (i j : columns.Idx)

/-- The field of a column. -/
abbrev ChunkColumns.field (columns : ChunkColumns) (i : columns.Idx) : ChunkField :=
  columns.fields.get i

/-- The column of an index. -/
theorem ChunkColumns.getElem_eq (hi : i.val < columns.length) :
    columns[i.val] = ((columns.field i).oid, (columns.field i).size) := by
  have hmap := ChunkColumns.map_fieldsFrom (DataChunkLayout.headerSize columns.length) columns
  have hget := List.getElem_of_eq hmap.symm hi
  rw [List.getElem_map] at hget
  exact hget

theorem ChunkColumns.val_lt : i.val < columns.length :=
  Nat.lt_of_lt_of_eq i.isLt columns.length_fields

/-- The ids are distinct, so the search for one ends at its column. -/
theorem ChunkColumns.idxOf_eq (hids : columns.ids.Nodup) :
    columns.ids.idxOf? (columns.field i).oid = some i.val := by
  have hi : i.val < columns.ids.length :=
    Nat.lt_of_lt_of_eq (ChunkColumns.val_lt i) columns.length_ids.symm
  have hoid : columns.ids[i.val] = (columns.field i).oid := by
    have hlt := ChunkColumns.val_lt i
    have hget : columns.ids[i.val] = columns[i.val].1 := List.getElem_map _
    rw [hget, ChunkColumns.getElem_eq i hlt]
  refine List.idxOf?_eq_some_iff.mpr ⟨hi, hoid, fun k hk heq => ?_⟩
  have hsame := (List.Nodup.getElem_inj_iff hids).mp (heq.trans hoid.symm)
  omega

namespace ChunkColumns.Fits

variable (h : columns.Fits)

include h

theorem typeSize : PaxLayout.TypeSize (columns.field i).size := by
  have hmem := List.getElem_mem (ChunkColumns.val_lt i)
  rw [ChunkColumns.getElem_eq i (ChunkColumns.val_lt i)] at hmem
  exact h.typed _ hmem

/-- The unit of a field divides that of the chunk. -/
theorem alignment_dvd : (columns.field i).alignment ∣ 8 := by
  have hsize := h.typeSize i
  unfold ChunkField.alignment
  simp only [PaxLayout.TypeSize, List.mem_cons, List.not_mem_nil, or_false] at hsize
  rcases hsize with heq | heq | heq | heq | heq <;> rw [heq] <;> decide

theorem inTurn :
    Lib.Column.InTurn 1 (8 + 6 * columns.length) columns.totalSize
      (columns.fields.map ChunkField.column) ∧
      ∀ f ∈ columns.fields, f.alignment ∣ f.offset := by
  rw [← headerSize_eq]
  exact h.typed.inTurn _ columns.offsets_le_totalSize

theorem behind_header : 8 + 6 * columns.length ≤ (columns.field i).offset :=
  h.inTurn.1.first _ (List.mem_map_of_mem (List.get_mem _ i))

theorem inside : (columns.field i).offset + (columns.field i).size.toNat ≤ columns.totalSize := by
  have hlast := h.inTurn.1.last _ (List.mem_map_of_mem (List.get_mem _ i))
  change (columns.field i).offset + 1 * (columns.field i).size.toNat ≤ _ at hlast
  rw [Nat.one_mul] at hlast
  exact hlast

theorem aligned : (columns.field i).alignment ∣ (columns.field i).offset :=
  h.inTurn.2 _ (List.get_mem _ i)

variable {i j}

theorem apart (hne : i ≠ j) :
    (columns.field i).offset + (columns.field i).size.toNat ≤ (columns.field j).offset ∨
    (columns.field j).offset + (columns.field j).size.toNat ≤ (columns.field i).offset := by
  have hlen : (columns.fields.map ChunkField.column).length = columns.fields.length :=
    List.length_map _
  have hi : i.val < (columns.fields.map ChunkField.column).length :=
    Nat.lt_of_lt_of_eq i.isLt hlen.symm
  have hj : j.val < (columns.fields.map ChunkField.column).length :=
    Nat.lt_of_lt_of_eq j.isLt hlen.symm
  have hapart := h.inTurn.1.apart hi hj Nat.one_pos Nat.one_pos (.inl fun heq => hne (Fin.ext heq))
  rw [List.getElem_map, List.getElem_map] at hapart
  unfold Lib.Column.cell at hapart
  rw [Nat.zero_mul, Nat.zero_mul] at hapart
  exact hapart

end ChunkColumns.Fits

namespace RawChunk.Header

variable (hheader : RawChunk.Header columns m chunk) (h : columns.Fits)

include hheader h

theorem offsetAt_eq (haligned : 8 ∣ chunk) :
    RawChunk.offsetAt m (RawChunk.offsetsPtr m chunk) i = (columns.field i).offset := by
  have hlen : (columns.fields.map ChunkField.offset).length = columns.length := by
    rw [List.length_map, columns.length_fields]
  have hentry :=
    Mem.read_entry (by rw [hlen]; exact hheader.offsets) (i := i.val)
      (by rw [List.length_map]; exact i.isLt)
  have hinside := h.inside i
  have hsmall := h.small
  unfold RawChunk.offsetAt
  rw [hheader.offsetsPtr_eq h haligned, hentry, ofLE_toLE, List.getElem_map, Nat.mod_eq_of_lt]
  · rfl
  · show (columns.field i).offset < 65536
    omega

theorem access_eq (haligned : 8 ∣ chunk) :
    RawChunk.access m chunk i = chunk + (columns.field i).offset := by
  unfold RawChunk.access
  rw [hheader.offsetAt_eq i h haligned]

end RawChunk.Header

/-- An iterator after this many fields. -/
theorem advance_iterate (it : ChunkIterator) (k : Nat) :
    ChunkIterator.advance^[k] it = { it with idx := it.idx + UInt32.ofNat k } := by
  induction k with
  | zero =>
      show it = { it with idx := it.idx + 0 }
      rw [UInt32.add_zero]
  | succ k ih =>
      rw [Function.iterate_succ_apply', ih, UInt32.ofNat_add, ← UInt32.add_assoc]
      rfl

/-! ## Chunks keep their fields -/

/-- The fields have ranges of their own behind the header and in the chunk. -/
structure Separate (columns : ChunkColumns) (layout : RawLayout) (chunk : Nat) : Prop where
  apart : ∀ i j, i ≠ j → (columns.field i).offset + (columns.field i).size.toNat ≤
    (columns.field j).offset ∨
    (columns.field j).offset + (columns.field j).size.toNat ≤ (columns.field i).offset
  aligned : ∀ i, (columns.field i).alignment ∣ chunk + (columns.field i).offset
  behind : ∀ i, layout.headerSize.toNat ≤ (columns.field i).offset
  inside : ∀ i, (columns.field i).offset + (columns.field i).size.toNat ≤ layout.totalSize.toNat

/-- The chunk at an address computes what the layout has written, and each way to a field ends at
that field. -/
structure RawChunk.Finds (columns : ChunkColumns) (layout : RawLayout) (m : Mem) (chunk : Nat) :
    Prop where
  columnCount : RawChunk.columnCount m chunk = layout.columnCount
  totalSize : RawChunk.totalSize m chunk = layout.totalSize
  headerSize : RawChunk.headerSize m chunk = layout.headerSize
  columnIds : RawChunk.columnIds m chunk = columns.ids
  offsets : ∀ i : columns.Idx, RawChunk.offsetAt m (RawChunk.offsetsPtr m chunk) i =
    (columns.field i).offset
  get : ∀ i, RawChunk.get m chunk (columns.field i).oid = .ok (chunk + (columns.field i).offset)
  access : ∀ i : columns.Idx, RawChunk.access m chunk i = chunk + (columns.field i).offset
  next : ∀ made, RawChunk.Has layout made chunk → ∀ i : columns.Idx,
    ((ChunkIterator.advance^[i] (RawChunk.initIterator made chunk)).next m).1 =
      chunk + (columns.field i).offset

/-- From `m` to `m'` the field has taken the value, and nothing else has changed. -/
structure RawChunk.Stored (columns : ChunkColumns) (layout : RawLayout) (chunk : Nat)
    (i : columns.Idx) (value : List Byte) (m m' : Mem) : Prop where
  has : RawChunk.Has layout m' chunk
  value : m'.read (chunk + (columns.field i).offset) (columns.field i).size.toNat = value
  others : ∀ j, j ≠ i → m'.read (chunk + (columns.field j).offset) (columns.field j).size.toNat =
    m.read (chunk + (columns.field j).offset) (columns.field j).size.toNat
  outside : ∀ a, a < chunk + (columns.field i).offset ∨
    chunk + (columns.field i).offset + (columns.field i).size.toNat ≤ a →
    m' a = m a

section Kept

variable (h : columns.Fits) (haligned : 8 ∣ chunk)

include h

theorem ChunkColumns.Fits.stored (hhas : RawChunk.Has (columns.layout fresh) m chunk)
    (i : columns.Idx) {value : List Byte} (hvalue : value.length = (columns.field i).size.toNat) :
    RawChunk.Stored columns (columns.layout fresh) chunk i value m
      (m.write (chunk + (columns.field i).offset) value) where
  has := by
    refine hhas.write ?_
    rw [h.toNat_headerSize]
    exact Nat.add_le_add_left (h.behind_header i) chunk
  value := Mem.read_write_of_length hvalue
  others j hne := by
    rcases h.apart hne with hbefore | hafter
    · exact Mem.read_write_of_disjoint (.inr (by omega))
    · exact Mem.read_write_of_disjoint (.inl (by omega))
  outside a ha := Mem.write_outside (by omega)

include haligned

theorem ChunkColumns.Fits.separate (fresh : Mem) :
    Separate columns (columns.layout fresh) chunk where
  apart _ _ hne := h.apart hne
  aligned i := Nat.dvd_add (Nat.dvd_trans (h.alignment_dvd i) haligned) (h.aligned i)
  behind i := by
    rw [h.toNat_headerSize]
    exact h.behind_header i
  inside i := by
    rw [h.toNat_totalSize]
    exact h.inside i

theorem RawChunk.Has.finds (hhas : RawChunk.Has (columns.layout fresh) m chunk)
    (hids : columns.ids.Nodup) :
    RawChunk.Finds columns (columns.layout fresh) m chunk := by
  have hheader := hhas.header h
  have hn := h.length_lt
  have haccess : ∀ i :
      columns.Idx, RawChunk.access m chunk i = chunk + (columns.field i).offset := by
    intro i
    exact hheader.access_eq i h haligned
  constructor
  case columnCount =>
    apply UInt32.toNat_inj.mp
    rw [hheader.toNat_columnCount h]
    show _ = (UInt32.ofNat columns.ids.length).toNat
    rw [columns.length_ids]
    exact (UInt32.toNat_ofNat_of_lt' (by show _ < 4294967296; omega)).symm
  case totalSize =>
    apply UInt32.toNat_inj.mp
    rw [hheader.toNat_totalSize h, h.toNat_totalSize]
  case headerSize =>
    apply UInt32.toNat_inj.mp
    rw [hheader.toNat_headerSize h haligned, h.toNat_headerSize]
  case columnIds => exact hheader.columnIds_eq h
  case offsets =>
    intro i
    exact hheader.offsetAt_eq i h haligned
  case access => exact haccess
  case get =>
    intro i
    unfold RawChunk.get
    rw [hheader.columnIds_eq h, ChunkColumns.idxOf_eq i hids]
    exact congrArg Except.ok (haccess i)
  case next =>
    intro made hmade i
    have hptr : RawChunk.offsetsPtr made chunk = RawChunk.offsetsPtr m chunk := by
      rw [(hmade.header h).offsetsPtr_eq h haligned, hheader.offsetsPtr_eq h haligned]
    have hidx : (0 + UInt32.ofNat i.val).toNat = i.val := by
      have hi := ChunkColumns.val_lt i
      rw [UInt32.zero_add]
      exact UInt32.toNat_ofNat_of_lt' (by show _ < 4294967296; omega)
    rw [advance_iterate]
    show chunk + RawChunk.offsetAt m (RawChunk.offsetsPtr made chunk)
      (0 + UInt32.ofNat i.val).toNat = _
    rw [hidx, hptr, hheader.offsetAt_eq i h haligned]

theorem RawChunk.Has.write_eq (hhas : RawChunk.Has (columns.layout fresh) m chunk)
    (hids : columns.ids.Nodup) (i : columns.Idx)
    (value : List Byte) : RawChunk.write m chunk (columns.field i).oid value =
      m.write (chunk + (columns.field i).offset) value := by
  unfold RawChunk.write
  rw [(hhas.header h).columnIds_eq h, ChunkColumns.idxOf_eq i hids]
  exact congrArg (m.write · value) ((hhas.header h).access_eq i h haligned)

end Kept

/-- A chunk that `CreateDataChunk` has placed at an aligned address finds what the layout has
written, as long as its header is kept. `Write` and `PushBack` keep it, and `Get`, `Access` and
`Next` read their value back. -/
theorem chunk_fields {columns : ChunkColumns} (h : columns.Fits) (hids : columns.ids.Nodup)
    (fresh memory : Mem) {chunk : Nat} (haligned : 8 ∣ chunk) :
    (columns.layout fresh).header.read 0 (columns.layout fresh).headerSize.toNat = columns.header ∧
    Separate columns (columns.layout fresh) chunk ∧
    RawChunk.Has (columns.layout fresh)
    ((columns.layout fresh).createDataChunk memory chunk) chunk ∧
    ∀ made m, RawChunk.Has (columns.layout fresh) made chunk →
      RawChunk.Has (columns.layout fresh) m chunk →
      RawChunk.Finds columns (columns.layout fresh) m chunk ∧
      ∀ (i : columns.Idx) (value : List Byte), value.length = (columns.field i).size.toNat →
        RawChunk.Stored columns (columns.layout fresh) chunk i value m
          (RawChunk.write m chunk (columns.field i).oid value) ∧
        RawChunk.Stored columns (columns.layout fresh) chunk i value m
          ((ChunkIterator.advance^[i] (RawChunk.initIterator made chunk)).pushBack m value).1 ∧
        ∀ alignof, alignof ∣ (columns.field i).alignment →
          (ChunkIterator.advance^[i] (RawChunk.initIterator made chunk)).pushBackValue m
            alignof value =
            .ok
              ((ChunkIterator.advance^[i] (RawChunk.initIterator made chunk)).pushBack m
                value) := by
  refine ⟨h.header_eq fresh, h.separate haligned fresh, has_createDataChunk .., ?_⟩
  intro made m hmade hhas
  have hfinds := hhas.finds h haligned hids
  refine ⟨hfinds, ?_⟩
  intro i value hvalue
  have hfield := hfinds.next made hmade i
  change (ChunkIterator.advance^[i] (RawChunk.initIterator made chunk)).field m = _ at hfield
  refine ⟨?_, ?_, ?_⟩
  · rw [hhas.write_eq h haligned hids]
    exact h.stored hhas i hvalue
  · show RawChunk.Stored _ _ _ _ _ _ (m.write (ChunkIterator.field m _) value)
    rw [hfield]
    exact h.stored hhas i hvalue
  · intro alignof hdvd
    have hfit : alignof ∣ chunk + (columns.field i).offset :=
      Nat.dvd_trans hdvd ((h.separate haligned fresh).aligned i)
    unfold ChunkIterator.pushBackValue
    rw [hfield, if_pos (Nat.mod_eq_zero_of_dvd hfit)]

/-- An `INTEGER`, a `VARCHAR` and a `TINYINT`. -/
theorem chunk_fields_mixed :
    RawChunk.Finds [(7, 4), (3, 16), (5, 1)]
    (ChunkColumns.layout [(7, 4), (3, 16), (5, 1)] fun _ => byte 9)
      ((ChunkColumns.layout [(7, 4), (3, 16), (5, 1)] fun _ => byte 9).createDataChunk
        (fun _ => byte 9) 4136) 4136 := by
  have htyped : ChunkColumns.Typed [(7, 4), (3, 16), (5, 1)] := by
    intro column hcolumn
    simp only [List.mem_cons, List.not_mem_nil, or_false] at hcolumn
    rcases hcolumn with rfl | rfl | rfl <;> simp [PaxLayout.TypeSize]
  have hsmall : ChunkColumns.totalSize [(7, 4), (3, 16), (5, 1)] < 2 ^ 16 := by decide
  have hresult :=
    chunk_fields ⟨htyped, hsmall⟩ (by decide) (fun _ => byte 9) (fun _ => byte 9)
      (show 8 ∣ 4136 by decide)
  exact (hresult.2.2.2 _ _ hresult.2.2.1 hresult.2.2.1).1

end Found

end Db7
