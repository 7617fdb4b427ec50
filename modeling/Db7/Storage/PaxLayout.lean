import Db7.Index.KeyOrder
import Db7.Lib.Columns
import Db7.Storage.UndoSegments
import Mathlib.Data.Nat.Bitwise

/-!
# The layout of a page

`PaxLayout` divides a page into the header, the bitmap of deleted rows, and one column for each
attribute. The row count comes from one division over bits; the bitmap and the start of each
column are rounded up afterwards, for which the worst case was taken off before.

* **layout** (`calculateOffsets`), in 32 bits, where `1 + 8 * row_size` wraps from 2^29 bytes on;
* **room** (`rowCount_fits`): bitmap, rows and padding fit behind the header;
* **result** (`layout_frames`): cells are apart, aligned, in the page, and each write keeps the
  rest.
-/

namespace Db7

open Lib

/-- `storage::PaxLayout`. -/
structure PaxLayout where
  sizes : List UInt16
  offsets : List UInt32
  maxRowCount : UInt32
  length_offsets : offsets.length = sizes.length

namespace PaxLayout

/-- `HEADER_SIZE`. -/
def headerSize : UInt32 := 4

/-- `row_size`. -/
def rowSize (sizes : List UInt16) : UInt32 := sizes.foldl (fun row size => row + size.toUInt32) 0

/-- `worst_case_pad`. -/
def worstCasePad (sizes : List UInt16) : UInt32 :=
  sizes.foldl (fun pad size => pad + (size.toUInt32 - 1)) 0

/-- `max_row_count_`. -/
def rowCount (sizes : List UInt16) : UInt32 :=
  (UInt32.ofNat db7PageSize - headerSize - worstCasePad sizes) * 8 / (1 + 8 * rowSize sizes)

/-- The offsets of the columns from `currOffset` on. -/
def columnOffsets (rows : UInt32) : UInt32 → List UInt16 → List UInt32
  | _, [] => []
  | currOffset, size :: sizes =>
      let offset := UInt32.ofNat (alignUp currOffset.toNat size.toNat)
      offset :: columnOffsets rows (offset + rows * size.toUInt32) sizes

theorem length_columnOffsets (rows currOffset : UInt32) (sizes : List UInt16) :
    (columnOffsets rows currOffset sizes).length = sizes.length := by
  induction sizes generalizing currOffset with
  | nil => rfl
  | cons size sizes ih => exact congrArg (· + 1) (ih _)

/-- `CalculateOffsets`. -/
def calculateOffsets (sizes : List UInt16) : PaxLayout where
  sizes := sizes
  offsets := columnOffsets (rowCount sizes) (headerSize + (rowCount sizes + 7) / 8) sizes
  maxRowCount := rowCount sizes
  length_offsets := length_columnOffsets ..

/-- A column index. It is a `u16` in the source: a layout with a row has fewer than 2^16 columns. -/
abbrev ColumnIdx (l : PaxLayout) : Type := Fin l.sizes.length

def size (l : PaxLayout) (column : l.ColumnIdx) : UInt16 := l.sizes.get column

def offset (l : PaxLayout) (column : l.ColumnIdx) : UInt32 :=
  l.offsets.get (column.cast l.length_offsets.symm)

/-- `CalcOffset`. -/
def calcOffset (l : PaxLayout) (row : UInt32) (column : l.ColumnIdx) : UInt32 :=
  row * (l.size column).toUInt32 + l.offset column

/-- `Get`, as an offset in the page. -/
def get (l : PaxLayout) (column : l.ColumnIdx) (row : UInt32) : Nat :=
  (l.calcOffset row column).toNat

/-- `Insert`. -/
def insert (l : PaxLayout) (page : Mem) (insertData : List Byte) (column : l.ColumnIdx)
    (row : UInt32) : Mem :=
  page.write (l.calcOffset row column).toNat insertData

/-- `Update` of a cell. -/
def update (l : PaxLayout) (page : Mem) (updateData : List Byte) (column : l.ColumnIdx)
    (row : UInt32) : Mem :=
  page.write (l.calcOffset row column).toNat updateData

/-- `Update` at an address in the page. -/
def updateDest (page : Mem) (dest : Nat) (updateData : List Byte) : Mem :=
  page.write dest updateData

/-- The byte of the bitmap with the bit of a row. -/
def bitmapByte (row : UInt32) : Nat := headerSize.toNat + row.toNat / 8

/-- `1 << (row_idx % 8)`. -/
def mask (row : UInt32) : Nat := 2 ^ (row.toNat % 8)

/-- `Delete`. -/
def delete (page : Mem) (row : UInt32) : Mem :=
  page.write (bitmapByte row) [byte ((page (bitmapByte row)).val ||| mask row)]

/-- `IsDeleted`. -/
def isDeleted (page : Mem) (row : UInt32) : Bool :=
  decide (0 < (page (bitmapByte row)).val &&& mask row)

/-- The bytes of a cell. -/
def cell (l : PaxLayout) (page : Mem) (row : UInt32) (column : l.ColumnIdx) : List Byte :=
  page.read (l.get column row) (l.size column).toNat

/-! ## Room -/

section Room

/-- A size that a type has. -/
def TypeSize (size : UInt16) : Prop := size ∈ ([1, 2, 4, 8, 16] : List UInt16)

/-- Bytes in a row. -/
def rowBytes (sizes : List UInt16) : Nat := (sizes.map UInt16.toNat).sum

/-- Bytes of padding at most. -/
def padBytes (sizes : List UInt16) : Nat := (sizes.map fun size => size.toNat - 1).sum

variable {sizes : List UInt16}

theorem TypeSize.pos {size : UInt16} (h : TypeSize size) : 0 < size.toNat := by
  simp only [TypeSize, List.mem_cons, List.not_mem_nil, or_false] at h
  rcases h with rfl | rfl | rfl | rfl | rfl <;> decide

/-- A sum in 32 bits. -/
theorem toNat_foldl_add (f : UInt16 → UInt32) (sizes : List UInt16) (n : UInt32) :
    (sizes.foldl (fun sum size => sum + f size) n).toNat =
      (n.toNat + (sizes.map fun size => (f size).toNat).sum) % 2 ^ 32 := by
  induction sizes generalizing n with
  | nil => exact (Nat.mod_eq_of_lt n.toNat_lt).symm
  | cons size sizes ih =>
      rw [List.foldl_cons, ih, UInt32.toNat_add, List.map_cons, List.sum_cons,
        Nat.mod_add_mod, Nat.add_assoc]

theorem toNat_rowSize (sizes : List UInt16) : (rowSize sizes).toNat = rowBytes sizes % 2 ^ 32 := by
  unfold rowSize
  rw [toNat_foldl_add UInt16.toUInt32]
  show (0 + _) % 2 ^ 32 = _
  rw [Nat.zero_add]
  rfl

theorem toNat_worstCasePad (hsizes : ∀ size ∈ sizes, TypeSize size) :
    (worstCasePad sizes).toNat = padBytes sizes % 2 ^ 32 := by
  have hsub : ∀ size ∈ sizes, (size.toUInt32 - 1).toNat = size.toNat - 1 := by
    intro size hsize
    exact UInt32.toNat_sub_of_le _ _ (UInt32.le_iff_toNat_le.mpr (hsizes size hsize).pos)
  unfold worstCasePad
  rw [toNat_foldl_add fun size => size.toUInt32 - 1, List.map_congr_left hsub]
  show (0 + _) % 2 ^ 32 = _
  rw [Nat.zero_add]
  rfl

/-- The row count, where nothing wraps. -/
theorem toNat_rowCount (hsizes : ∀ size ∈ sizes, TypeSize size)
    (hpad : padBytes sizes ≤ db7PageSize - headerSize.toNat) (hrow : rowBytes sizes < 2 ^ 29) :
    (rowCount sizes).toNat = (db7PageSize - 4 - padBytes sizes) * 8 / (1 + 8 * rowBytes sizes) := by
  change padBytes sizes ≤ 8188 at hpad
  have hrow' : (rowSize sizes).toNat = rowBytes sizes := by
    rw [toNat_rowSize]
    omega
  have hpad' : (worstCasePad sizes).toNat = padBytes sizes := by
    rw [toNat_worstCasePad hsizes]
    omega
  have hsub : (8188 - worstCasePad sizes).toNat = 8188 - padBytes sizes := by
    rw [UInt32.toNat_sub_of_le _ _ (UInt32.le_iff_toNat_le.mpr (by rw [hpad']; exact hpad)), hpad']
    rfl
  unfold rowCount
  change ((8188 - worstCasePad sizes) * 8 / (1 + 8 * rowSize sizes)).toNat =
    (8188 - padBytes sizes) * 8 / (1 + 8 * rowBytes sizes)
  have hbits : ((8188 - worstCasePad sizes) * 8).toNat = (8188 - padBytes sizes) * 8 := by
    rw [UInt32.toNat_mul, hsub]
    show (8188 - padBytes sizes) * 8 % 2 ^ 32 = (8188 - padBytes sizes) * 8
    omega
  have hdivisor : (1 + 8 * rowSize sizes).toNat = 1 + 8 * rowBytes sizes := by
    rw [UInt32.toNat_add, UInt32.toNat_mul, hrow']
    show (1 + 8 * rowBytes sizes % 2 ^ 32) % 2 ^ 32 = 1 + 8 * rowBytes sizes
    omega
  rw [UInt32.toNat_div, hbits, hdivisor]

/-- The bitmap, the rows and the padding fit behind the header. -/
theorem rowCount_fits (hsizes : ∀ size ∈ sizes, TypeSize size)
    (hpad : padBytes sizes ≤ db7PageSize - headerSize.toNat) (hrow : rowBytes sizes < 2 ^ 29) :
    headerSize.toNat + ((rowCount sizes).toNat + 7) / 8 + (rowCount sizes).toNat * rowBytes
      sizes + padBytes sizes ≤
      db7PageSize := by
  have hle : (rowCount sizes).toNat * (1 + 8 * rowBytes sizes) ≤ (8188 - padBytes sizes) * 8 := by
    rw [toNat_rowCount hsizes hpad hrow]
    exact Nat.div_mul_le_self _ _
  rw [Nat.mul_add, Nat.mul_one, Nat.mul_left_comm] at hle
  change padBytes sizes ≤ 8188 at hpad
  show 4 + _ + _ + _ ≤ 8192
  generalize (rowCount sizes).toNat * rowBytes sizes = cells at hle ⊢
  omega

theorem alignUp_lt {n a : Nat} (ha : 0 < a) : alignUp n a < n + a := by
  have h := Nat.div_add_mod (n + a - 1) a
  rw [Nat.mul_comm] at h
  unfold alignUp
  omega

/-- The columns from an offset on, if rows and padding fit behind it. -/
theorem columnOffsets_inTurn (rows currOffset : UInt32) (hsizes : ∀ size ∈ sizes, TypeSize size)
    (hfits : currOffset.toNat + rows.toNat * rowBytes sizes + padBytes sizes ≤ db7PageSize) :
    Lib.Column.InTurn rows.toNat currOffset.toNat db7PageSize
        (List.zipWith (fun size offset => ⟨offset.toNat, size.toNat⟩) sizes
          (columnOffsets rows currOffset sizes)) ∧
      ∀ c ∈ List.zipWith (fun size offset => (⟨offset.toNat, size.toNat⟩ : Lib.Column)) sizes
        (columnOffsets rows currOffset sizes),
        c.width ∣ c.start := by
  induction sizes generalizing currOffset with
  | nil => exact ⟨.nil, fun c hc => absurd hc List.not_mem_nil⟩
  | cons size sizes ih =>
      have hpos := (hsizes size List.mem_cons_self).pos
      have hlow : currOffset.toNat ≤ alignUp currOffset.toNat size.toNat :=
        DataChunkLayout.le_alignUp hpos
      have hhigh : alignUp currOffset.toNat size.toNat < currOffset.toNat + size.toNat :=
        alignUp_lt hpos
      have hrow : rowBytes (size :: sizes) = size.toNat + rowBytes sizes := rfl
      have hpad : padBytes (size :: sizes) = size.toNat - 1 + padBytes sizes := rfl
      rw [hrow, hpad, Nat.mul_add] at hfits
      change currOffset.toNat + (rows.toNat * size.toNat + rows.toNat * rowBytes sizes) +
        (size.toNat - 1 + padBytes sizes) ≤ 8192 at hfits
      have hoffset : (UInt32.ofNat (alignUp currOffset.toNat size.toNat)).toNat =
          alignUp currOffset.toNat size.toNat :=
        UInt32.toNat_ofNat_of_lt' (by show _ < 2 ^ 32; omega)
      have hnext :
          (UInt32.ofNat (alignUp currOffset.toNat size.toNat) + rows * size.toUInt32).toNat =
          alignUp currOffset.toNat size.toNat + rows.toNat * size.toNat := by
        rw [UInt32.toNat_add, UInt32.toNat_mul, hoffset]
        show (_ + rows.toNat * size.toNat % 2 ^ 32) % 2 ^ 32 = _
        generalize rows.toNat * size.toNat = bytes at hfits ⊢
        omega
      obtain ⟨hturn, halign⟩ :=
        ih (UInt32.ofNat (alignUp currOffset.toNat size.toNat) + rows * size.toUInt32)
        (fun s hs => hsizes s (List.mem_cons_of_mem _ hs)) (by rw [hnext]; show _ ≤ 8192; omega)
      rw [hnext] at hturn
      unfold columnOffsets
      rw [List.zipWith_cons_cons, hoffset]
      refine ⟨.cons hlow ?_ hturn, fun c hc => ?_⟩
      · show alignUp currOffset.toNat size.toNat + rows.toNat * size.toNat ≤ 8192
        omega
      · rcases List.mem_cons.mp hc with rfl | hc
        · exact Nat.dvd_mul_left _ _
        · exact halign c hc

end Room

/-! ## Cells -/

/-- The columns of a layout. -/
def columns (l : PaxLayout) : List Lib.Column :=
  List.zipWith (fun size offset => ⟨offset.toNat, size.toNat⟩) l.sizes l.offsets

/-- The columns lie behind the bitmap and in the page, aligned, and rows are numbered without a
wrap. -/
structure Sound (l : PaxLayout) : Prop where
  inTurn : Lib.Column.InTurn l.maxRowCount.toNat (headerSize.toNat + (l.maxRowCount.toNat + 7) / 8)
    db7PageSize l.columns
  aligned : ∀ c ∈ l.columns, c.width ∣ c.start

theorem sound_calculateOffsets {sizes : List UInt16} (hsizes : ∀ size ∈ sizes, TypeSize size)
    (hpad : padBytes sizes ≤ db7PageSize - headerSize.toNat) (hrow : rowBytes sizes < 2 ^ 29) :
    (calculateOffsets sizes).Sound := by
  have hfits := rowCount_fits hsizes hpad hrow
  have hcount : (rowCount sizes).toNat ≤ 65536 := by
    have hfits' : _ ≤ 8192 := hfits
    omega
  have hfirst : (headerSize + (rowCount sizes + 7) / 8).toNat =
      headerSize.toNat + ((rowCount sizes).toNat + 7) / 8 := by
    rw [UInt32.toNat_add, UInt32.toNat_div, UInt32.toNat_add]
    show (4 + ((rowCount sizes).toNat + 7) % 2 ^ 32 / 8) % 2 ^ 32 =
      4 + ((rowCount sizes).toNat + 7) / 8
    omega
  obtain ⟨hturn, halign⟩ :=
    columnOffsets_inTurn (rowCount sizes) (headerSize + (rowCount sizes + 7) / 8) hsizes
    (by rw [hfirst]; exact hfits)
  rw [hfirst] at hturn
  exact ⟨hturn, halign⟩

section Cells

variable {l : PaxLayout} {row row' : UInt32} {column column' : l.ColumnIdx} {page : Mem}

/-- The column of an index. -/
def columnAt (l : PaxLayout) (column : l.ColumnIdx) : Lib.Column :=
  ⟨(l.offset column).toNat, (l.size column).toNat⟩

theorem length_columns (l : PaxLayout) : l.columns.length = l.sizes.length := by
  unfold columns
  rw [List.length_zipWith, l.length_offsets, Nat.min_self]

theorem lt_length_columns (column : l.ColumnIdx) : column.val < l.columns.length := by
  rw [l.length_columns]
  exact column.isLt

theorem getElem_columns (column : l.ColumnIdx) (h : column.val < l.columns.length) :
    l.columns[column.val] = l.columnAt column :=
  List.getElem_zipWith

theorem column_mem (column : l.ColumnIdx) : l.columnAt column ∈ l.columns := by
  rw [← getElem_columns column (lt_length_columns column)]
  exact List.getElem_mem _

/-- `CalcOffset` does not wrap for a row of the page. -/
theorem Sound.toNat_calcOffset (h : l.Sound) (hrow : row < l.maxRowCount) :
    (l.calcOffset row column).toNat = (l.columnAt column).cell row.toNat := by
  have hlast := h.inTurn.last _ (column_mem column)
  have hcell : (l.columnAt column).cell row.toNat + (l.columnAt column).width ≤
      (l.columnAt column).stop l.maxRowCount.toNat :=
    Lib.Column.cell_le_stop (UInt32.lt_iff_toNat_lt.mp hrow)
  change (l.columnAt column).stop l.maxRowCount.toNat ≤ 8192 at hlast
  have hvalue :
      (l.columnAt column).cell row.toNat =
      (l.offset column).toNat + row.toNat * (l.size column).toNat := rfl
  unfold calcOffset
  rw [UInt32.toNat_add, UInt32.toNat_mul]
  show (row.toNat * (l.size column).toNat % 2 ^ 32 + (l.offset column).toNat) % 2 ^ 32 = _
  rw [hvalue] at hcell ⊢
  generalize row.toNat * (l.size column).toNat = bytes at hcell ⊢
  omega

/-- Two different cells have no common byte. -/
theorem Sound.cells_apart (h : l.Sound) (hrow : row < l.maxRowCount) (hrow' : row' < l.maxRowCount)
    (hne : (row, column) ≠ (row', column')) :
    l.get column row + (l.size column).toNat ≤ l.get column' row' ∨
      l.get column' row' + (l.size column').toNat ≤ l.get column row := by
  have hdiffer : column.val ≠ column'.val ∨ row.toNat ≠ row'.toNat := by
    by_contra hsame
    rw [not_or, not_not, not_not] at hsame
    exact hne (Prod.ext (UInt32.toNat_inj.mp hsame.2) (Fin.ext hsame.1))
  have hapart := h.inTurn.apart (lt_length_columns column) (lt_length_columns column')
    (UInt32.lt_iff_toNat_lt.mp hrow) (UInt32.lt_iff_toNat_lt.mp hrow') hdiffer
  rw [getElem_columns, getElem_columns] at hapart
  unfold get
  rw [h.toNat_calcOffset hrow, h.toNat_calcOffset hrow']
  exact hapart

theorem Sound.cell_aligned (h : l.Sound) (hrow : row < l.maxRowCount) :
    (l.size column).toNat ∣ l.get column row := by
  unfold get
  rw [h.toNat_calcOffset hrow]
  exact Lib.Column.dvd_cell (h.aligned _ (column_mem column))

theorem Sound.cell_inside (h : l.Sound) (hrow : row < l.maxRowCount) :
    l.get column row + (l.size column).toNat ≤ db7PageSize := by
  unfold get
  rw [h.toNat_calcOffset hrow]
  exact Nat.le_trans (Lib.Column.cell_le_stop (UInt32.lt_iff_toNat_lt.mp hrow))
    (h.inTurn.last _ (column_mem column))

/-- Cells lie behind the header and the bytes of the bitmap. -/
theorem Sound.bitmap_before (h : l.Sound) (hrow : row < l.maxRowCount)
    (hrow' : row' < l.maxRowCount) :
    headerSize.toNat ≤ bitmapByte row' ∧ bitmapByte row' < l.get column row := by
  have hfirst := h.inTurn.first _ (column_mem column)
  have hcell : (l.columnAt column).start ≤ (l.columnAt column).cell row.toNat :=
    Lib.Column.start_le_cell
  have hlt := UInt32.lt_iff_toNat_lt.mp hrow'
  unfold get bitmapByte
  rw [h.toNat_calcOffset hrow]
  omega

end Cells

/-! ## Writes -/

/-- Cells are apart, aligned, and in the page behind the header and the bitmap. -/
structure CellsFit (l : PaxLayout) : Prop where
  apart : ∀ row row' column column', row < l.maxRowCount → row' < l.maxRowCount →
    (row, column) ≠ (row', column') →
    l.get column row + (l.size column).toNat ≤ l.get column' row' ∨
      l.get column' row' + (l.size column').toNat ≤ l.get column row
  aligned : ∀ row column, row < l.maxRowCount → (l.size column).toNat ∣ l.get column row
  bitmap : ∀ row row' column, row < l.maxRowCount → row' < l.maxRowCount →
    headerSize.toNat ≤ bitmapByte row' ∧ bitmapByte row' < l.get column row
  inside : ∀ row column, row < l.maxRowCount →
    l.get column row + (l.size column).toNat ≤ db7PageSize

/-- A write to one cell leaves the others, the bitmap and the header. -/
structure KeepsOthers (l : PaxLayout) (page page' : Mem) (row : UInt32) (column : l.ColumnIdx) :
    Prop where
  cells : ∀ row' column', row' < l.maxRowCount → (row, column) ≠ (row', column') →
    l.cell page' row' column' = l.cell page row' column'
  bits : ∀ row' < l.maxRowCount, isDeleted page' row' = isDeleted page row'
  header : page'.read 0 headerSize.toNat = page.read 0 headerSize.toNat

/-- A deletion leaves the cells, the bits of other rows and the header. -/
structure KeepsRows (l : PaxLayout) (page page' : Mem) (row : UInt32) : Prop where
  cells : ∀ row' column, row' < l.maxRowCount → l.cell page' row' column = l.cell page row' column
  bits : ∀ row' < l.maxRowCount, row' ≠ row → isDeleted page' row' = isDeleted page row'
  header : page'.read 0 headerSize.toNat = page.read 0 headerSize.toNat

/-- Cells fit, and the three writes keep everything else. -/
structure Frames (l : PaxLayout) : Prop extends CellsFit l where
  insert : ∀ page row column insertData, row < l.maxRowCount →
    insertData.length = (l.size column).toNat →
    l.KeepsOthers page (l.insert page insertData column row) row column
  update : ∀ page row column updateData, row < l.maxRowCount →
    updateData.length = (l.size column).toNat →
    l.KeepsOthers page (l.update page updateData column row) row column
  updateDest : ∀ page row column updateData, row < l.maxRowCount →
    updateData.length = (l.size column).toNat →
    l.KeepsOthers page (updateDest page (l.get column row) updateData) row column
  delete : ∀ page row, row < l.maxRowCount → l.KeepsRows page (delete page row) row

section Writes

variable {l : PaxLayout} {row row' : UInt32} {page : Mem}

/-- The bit of a row depends on its byte. -/
theorem isDeleted_congr {page page' : Mem} (h : page' (bitmapByte row) = page (bitmapByte row)) :
    isDeleted page' row = isDeleted page row := by
  unfold isDeleted
  rw [h]

theorem Sound.cellsFit (h : l.Sound) : l.CellsFit where
  apart _ _ _ _ hrow hrow' hne := h.cells_apart hrow hrow' hne
  aligned _ _ hrow := h.cell_aligned hrow
  bitmap _ _ _ hrow hrow' := h.bitmap_before hrow hrow'
  inside _ _ hrow := h.cell_inside hrow

theorem CellsFit.write (h : l.CellsFit) {column : l.ColumnIdx} {bytes : List Byte}
    (hrow : row < l.maxRowCount) (hbytes : bytes.length = (l.size column).toNat) :
    l.KeepsOthers page (page.write (l.get column row) bytes) row column where
  cells row' column' hrow' hne := by
    refine Mem.read_write_of_disjoint ?_
    rw [hbytes]
    exact h.apart row row' column column' hrow hrow' hne
  bits row' hrow' := isDeleted_congr (Mem.write_of_lt (h.bitmap row row' column hrow hrow').2)
  header := by
    refine Mem.read_write_of_disjoint (.inr ?_)
    have hbehind := h.bitmap row row column hrow hrow
    omega

/-- A bit is set, and no other bit of the byte. -/
theorem and_or_mask (b i j : Nat) (hij : i ≠ j) : (b ||| 2 ^ i) &&& 2 ^ j = b &&& 2 ^ j := by
  rw [Nat.and_two_pow, Nat.and_two_pow, Nat.testBit_or,
    Nat.testBit_two_pow_of_ne hij, Bool.or_false]

/-- The byte with the bit of the row, after `Delete`. -/
theorem delete_bitmapByte (page : Mem) (row : UInt32) :
    (delete page row (bitmapByte row)).val = (page (bitmapByte row)).val ||| mask row := by
  have hmask : mask row < 2 ^ 8 := Nat.pow_lt_pow_right (by decide) (Nat.mod_lt _ (by decide))
  have hlt : (page (bitmapByte row)).val ||| mask row < 2 ^ 8 :=
    Nat.or_lt_two_pow (page (bitmapByte row)).isLt hmask
  have hwritten :
      delete page row (bitmapByte row) = byte ((page (bitmapByte row)).val ||| mask row) := by
    unfold delete Mem.write
    rw [if_pos (by rw [List.length_singleton]; omega), Nat.sub_self]
    rfl
  rw [hwritten]
  exact Nat.mod_eq_of_lt hlt

theorem isDeleted_delete (page : Mem) (row : UInt32) : isDeleted (delete page row) row = true := by
  unfold isDeleted
  rw [delete_bitmapByte]
  unfold mask
  rw [Nat.and_two_pow, Nat.testBit_or, Nat.testBit_two_pow_self, Bool.or_true]
  refine decide_eq_true ?_
  rw [Bool.toNat_true, Nat.one_mul]
  exact Nat.two_pow_pos _

theorem isDeleted_delete_of_ne (hne : row' ≠ row) :
    isDeleted (delete page row) row' = isDeleted page row' := by
  by_cases hbyte : bitmapByte row' = bitmapByte row
  · -- both bits are in one byte
    have hbit : row.toNat % 8 ≠ row'.toNat % 8 := by
      intro heq
      refine hne (UInt32.toNat_inj.mp ?_)
      unfold bitmapByte at hbyte
      omega
    unfold isDeleted
    rw [hbyte, delete_bitmapByte]
    unfold mask
    rw [and_or_mask _ _ _ hbit]
  · refine isDeleted_congr (Mem.write_outside ?_)
    rw [List.length_singleton]
    omega

theorem CellsFit.delete (h : l.CellsFit) (hrow : row < l.maxRowCount) :
    l.KeepsRows page (PaxLayout.delete page row) row where
  cells row' column hrow' := by
    refine Mem.read_write_of_disjoint (.inl ?_)
    rw [List.length_singleton]
    exact (h.bitmap row' row column hrow' hrow).2
  bits row' _ hne := isDeleted_delete_of_ne hne
  header := by
    refine Mem.read_write_of_disjoint (.inr ?_)
    unfold bitmapByte
    omega

end Writes

/-- **Cells are apart, aligned and in the page, and `Insert`, `Update` and `Delete` change nothing
else, in the layout of every row of fewer than 2^29 bytes whose padding leaves the page a byte.** -/
theorem layout_frames (sizes : List UInt16) (hsizes : ∀ size ∈ sizes, TypeSize size)
    (hpad : padBytes sizes ≤ db7PageSize - headerSize.toNat) (hrow : rowBytes sizes < 2 ^ 29) :
    (calculateOffsets sizes).Frames := by
  have hfit := (sound_calculateOffsets hsizes hpad hrow).cellsFit
  exact {
    hfit with
    insert := fun page row column insertData hrow hlength => hfit.write hrow hlength
    update := fun page row column updateData hrow hlength => hfit.write hrow hlength
    updateDest := fun page row column updateData hrow hlength => hfit.write hrow hlength
    delete := fun page row hrow => hfit.delete hrow }

theorem layout_frames_two : (calculateOffsets [1, 16]).Frames :=
  layout_frames [1, 16] (by simp [TypeSize]) (by decide) (by decide)

/-- The offset of the first cell. -/
theorem get_first (size : UInt16) (sizes : List UInt16)
    (h : 0 < (calculateOffsets (size :: sizes)).sizes.length) :
    (calculateOffsets (size :: sizes)).get ⟨0, h⟩ 0 =
      (UInt32.ofNat (alignUp (headerSize + (rowCount (size :: sizes) + 7) / 8).toNat
        size.toNat)).toNat := by
  have hoffset : (calculateOffsets (size :: sizes)).calcOffset 0 ⟨0, h⟩ = 0 * size.toUInt32 +
      UInt32.ofNat (alignUp (headerSize + (rowCount (size :: sizes) + 7) / 8).toNat size.toNat) :=
        rfl
  unfold get
  rw [hoffset, UInt32.zero_mul, UInt32.zero_add]

/-- For 2^29 columns of one byte the divisor is 1. -/
theorem rowCount_wraps {sizes : List UInt16} (hsizes : ∀ size ∈ sizes, TypeSize size)
    (hpad : padBytes sizes = 0) (hbytes : rowBytes sizes = 2 ^ 29) : rowCount sizes = 65504 := by
  have hrow : rowSize sizes = 536870912 := UInt32.toNat_inj.mp (by rw [toNat_rowSize, hbytes]; rfl)
  have hpad' : worstCasePad sizes = 0 :=
    UInt32.toNat_inj.mp (by rw [toNat_worstCasePad hsizes, hpad]; rfl)
  unfold rowCount
  rw [hrow, hpad']
  rfl

/-- Then the bitmap takes the page, and the first cell begins behind it. -/
theorem row_size_wraps : ¬∀ sizes : List UInt16, sizes ≠ [] → (∀ size ∈ sizes, TypeSize size) →
    padBytes sizes ≤ db7PageSize - headerSize.toNat → (calculateOffsets sizes).Frames := by
  intro hall
  obtain ⟨n, hn⟩ : ∃ n, n + 1 = 2 ^ 29 := ⟨2 ^ 29 - 1, rfl⟩
  have hsizes : ∀ size ∈ List.replicate (n + 1) (1 : UInt16), TypeSize size := by
    intro size hsize
    rw [List.eq_of_mem_replicate hsize]
    exact List.mem_cons_self
  have hpad : padBytes (List.replicate (n + 1) 1) = 0 := by
    unfold padBytes
    rw [List.map_replicate, List.sum_replicate_nat]
    exact Nat.mul_zero _
  have hbytes : rowBytes (List.replicate (n + 1) 1) = 2 ^ 29 := by
    unfold rowBytes
    rw [List.map_replicate, List.sum_replicate_nat, hn]
    rfl
  have hcount := rowCount_wraps hsizes hpad hbytes
  have hframes :=
    hall (List.replicate (n + 1) 1) (List.cons_ne_nil _ _) hsizes
      (by rw [hpad]; exact Nat.zero_le _)
  rw [List.replicate_succ] at hcount hframes
  have hfirst := get_first 1 (List.replicate n 1) (Nat.succ_pos _)
  have hinside :
      (calculateOffsets (1 :: List.replicate n 1)).get ⟨0, Nat.succ_pos _⟩ 0 + 1 ≤ db7PageSize :=
    hframes.inside 0 ⟨0, Nat.succ_pos _⟩ (by show 0 < rowCount _; rw [hcount]; decide)
  rw [hfirst, hcount] at hinside
  have hbeyond : ¬(8192 + 1 ≤ db7PageSize) := by decide
  exact hbeyond hinside

end PaxLayout

end Db7
