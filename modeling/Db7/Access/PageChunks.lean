import Db7.Access.ChunkLayout
import Db7.Access.Visibility

/-!
# Rows in the bytes of pages and chunks

`ChunkUtils` moves values between a page, laid out by `PaxLayout`, and chunks, each with a header
that tells where its fields are. Read as rows and lists of fields, the bytes are what
`Db7.Access.DataChunk` computes with:

* **values** (`rowAt`, `contents`): the cells of a row by position, the fields of a chunk in the
  order of its header;
* **loops** (`read_eq`, `insert_eq`, `update_eq`, `merge_eq`): each of `ChunkUtils` computes on the
  bytes what its counterpart computes on rows and fields, throws nothing, and changes no other byte.
-/

namespace Db7

open Lib Function

/-- The value that the bytes are. -/
def toValue (bytes : List Byte) : Value := bytes.map UInt8.ofFin

/-! ## Schemas -/

/-- `access::Schema` with the sizes of its columns, by position. -/
structure PageSchema extends Schema where
  sizes : List UInt16
  length_sizes : sizes.length = columns.length
  typed : ∀ size ∈ sizes, PaxLayout.TypeSize size
  padding : PaxLayout.padBytes sizes ≤ db7PageSize - PaxLayout.headerSize.toNat
  small : PaxLayout.rowBytes sizes < 2 ^ 29

namespace PageSchema

/-- `CreateLayoutFromSchema`. -/
def layout (schema : PageSchema) : PaxLayout := PaxLayout.calculateOffsets schema.sizes

variable {schema : PageSchema}

theorem cellsFit (schema : PageSchema) : schema.layout.CellsFit :=
  (PaxLayout.sound_calculateOffsets schema.typed schema.padding schema.small).cellsFit

theorem position_lt {id : UInt32} (h : id.toNat ∈ schema.columns) :
    schema.position id.toNat < schema.layout.sizes.length := by
  show _ < schema.sizes.length
  rw [schema.length_sizes]
  exact List.idxOf_lt_length_of_mem h

/-- `GetColumn(id).GetPosiiton()`; `mapping_.at` throws for an id that is not in the schema. -/
def getColumn (schema : PageSchema) (id : UInt32) : Except String schema.layout.ColumnIdx :=
  if h : id.toNat ∈ schema.columns then .ok ⟨schema.position id.toNat, position_lt h⟩
    else .error "unordered_map::at"

theorem val_of_getColumn {id : UInt32} {column : schema.layout.ColumnIdx}
    (h : schema.getColumn id = .ok column) :
    id.toNat ∈ schema.columns ∧ column.val = schema.position id.toNat := by
  unfold getColumn at h
  split at h
  · rename_i hmem
    exact ⟨hmem, by rw [← Except.ok.inj h]⟩
  · cases h

/-- The cells of a row, by position. -/
def rowAt (schema : PageSchema) (page : Mem) (idx : UInt32) : Row := fun pos =>
  if h : pos < schema.sizes.length then toValue (schema.layout.cell page idx ⟨pos, h⟩) else []

theorem rowAt_val (page : Mem) (idx : UInt32) (column : schema.layout.ColumnIdx) :
    schema.rowAt page idx column.val = toValue (schema.layout.cell page idx column) :=
  dif_pos column.isLt

theorem rowAt_congr {page page' : Mem} {idx : UInt32}
    (h : ∀ column, schema.layout.cell page' idx column = schema.layout.cell page idx column) :
    schema.rowAt page' idx = schema.rowAt page idx := by
  funext pos
  unfold rowAt
  split
  · rw [h]
  · rfl

/-- A cell written is that position of the row, and no other. -/
theorem rowAt_write {page : Mem} {idx : UInt32} (hidx : idx < schema.layout.maxRowCount)
    (column : schema.layout.ColumnIdx)
    {bytes : List Byte} (hbytes : bytes.length = (schema.layout.size column).toNat) :
    schema.rowAt (page.write (schema.layout.get column idx) bytes) idx =
      update (schema.rowAt page idx) column.val (toValue bytes) := by
  have hkeeps : schema.layout.KeepsOthers page _ idx column := schema.cellsFit.write hidx hbytes
  funext pos
  by_cases hpos : pos = column.val
  · subst hpos
    rw [update_self, rowAt_val]
    exact congrArg toValue (Mem.read_write_of_length hbytes)
  · rw [update_of_ne hpos]
    unfold rowAt
    split
    · rename_i hlt
      rw [hkeeps.cells idx ⟨pos, hlt⟩ hidx fun heq =>
        hpos (congrArg Fin.val (Prod.mk.inj heq).2).symm]
    · rfl

/-- The row has these values now; the other rows, the bitmap and the header are as they were. -/
structure RowBecomes (schema : PageSchema) (idx : UInt32) (page page' : Mem) (row : Row) :
    Prop where
  row : schema.rowAt page' idx = row
  others : ∀ idx' < schema.layout.maxRowCount, idx' ≠ idx → schema.rowAt page' idx' =
    schema.rowAt page idx'
  bits : ∀ idx' < schema.layout.maxRowCount, PaxLayout.isDeleted page' idx' =
    PaxLayout.isDeleted page idx'
  header : page'.read 0 4 = page.read 0 4

theorem RowBecomes.refl (idx : UInt32) (page : Mem) :
    schema.RowBecomes idx page page (schema.rowAt page idx) :=
  ⟨rfl, fun _ _ _ => rfl, fun _ _ => rfl, rfl⟩

theorem RowBecomes.trans {idx : UInt32} {page page' page'' : Mem} {row row' : Row}
    (h : schema.RowBecomes idx page page' row)
    (h' : schema.RowBecomes idx page' page'' row') : schema.RowBecomes idx page page'' row' where
  row := h'.row
  others idx' hidx hne := (h'.others idx' hidx hne).trans (h.others idx' hidx hne)
  bits idx' hidx := (h'.bits idx' hidx).trans (h.bits idx' hidx)
  header := h'.header.trans h.header

theorem rowBecomes_write (page : Mem) {idx : UInt32} (hidx : idx < schema.layout.maxRowCount)
    (column : schema.layout.ColumnIdx) (bytes : List Byte)
    (hbytes : bytes.length = (schema.layout.size column).toNat) :
    schema.RowBecomes idx page (page.write (schema.layout.get column idx) bytes)
      (update (schema.rowAt page idx) column.val (toValue bytes)) := by
  have hkeeps : schema.layout.KeepsOthers page _ idx column := schema.cellsFit.write hidx hbytes
  refine ⟨rowAt_write hidx column hbytes, ?_, hkeeps.bits, hkeeps.header⟩
  intro idx' hidx' hne
  exact rowAt_congr fun column' => hkeeps.cells idx' column' hidx' fun heq =>
    hne (Prod.mk.inj heq).1.symm

end PageSchema

/-! ## Chunks -/

/-- `Write` replaces the field of the column. -/
theorem DataChunk.write_eq_set {chunk : DataChunk} {i : Nat} {oid : ColOid} {v w : Value}
    (hnodup : chunk.getColumnIds.Nodup)
    (hi : chunk[i]? = some (oid, w)) : chunk.write oid v = List.set chunk i (oid, v) := by
  induction chunk generalizing i with
  | nil => simp at hi
  | cons f rest ih =>
      obtain ⟨id, x⟩ := f
      obtain ⟨hid, hrest⟩ := List.nodup_cons.mp hnodup
      cases i with
      | zero =>
          obtain ⟨rfl, rfl⟩ : id = oid ∧ x = w := by simpa using hi
          simp [write]
      | succ i =>
          have hmem : (oid, w) ∈ rest := List.mem_of_getElem? (by simpa using hi)
          have hne : id ≠ oid := by
            rintro rfl
            exact hid (List.mem_map.mpr ⟨_, hmem, rfl⟩)
          simp [write, hne, ih hrest (by simpa using hi)]

theorem DataChunk.write_of_notMem {chunk : DataChunk} {oid : ColOid} {v : Value}
    (h : oid ∉ chunk.getColumnIds) :
    chunk.write oid v = chunk := by
  induction chunk with
  | nil => rfl
  | cons f rest ih =>
      obtain ⟨hne, hrest⟩ := not_or.mp (mt List.mem_cons.mpr h)
      simp [write, Ne.symm hne, ih hrest]

/-- The fields up to the one that is written. -/
theorem DataChunk.take_write {chunk : DataChunk} {i : Nat} {oid : ColOid} {v w : Value}
    (hnodup : chunk.getColumnIds.Nodup) (hi : chunk[i]? = some (oid, w)) :
    (chunk.write oid v).take (i + 1) = chunk.take i ++ [(oid, v)] := by
  have hlt : i < chunk.length := (List.getElem?_eq_some_iff.mp hi).1
  rw [write_eq_set hnodup hi, List.take_add_one, List.take_set_of_le (Nat.le_refl i),
    List.getElem?_set_self hlt]
  rfl

/-- `Get` finds the value of a field. -/
theorem DataChunk.get_eq_of_mem {chunk : DataChunk} {oid : ColOid} {w : Value}
    (hnodup : chunk.getColumnIds.Nodup) (hmem : (oid, w) ∈ chunk) : chunk.get oid = some w := by
  induction chunk with
  | nil => cases hmem
  | cons f rest ih =>
      obtain ⟨id, x⟩ := f
      obtain ⟨hid, hrest⟩ := List.nodup_cons.mp hnodup
      rcases List.mem_cons.mp hmem with heq | hmem
      · obtain ⟨rfl, rfl⟩ := Prod.mk.inj heq
        simp [get]
      · have hne : id ≠ oid := by
          rintro rfl
          exact hid (List.mem_map.mpr ⟨_, hmem, rfl⟩)
        simpa [get, hne] using ih hrest hmem

/-- A place for a chunk: its address, which is aligned, and its columns. -/
structure PlacedChunk where
  address : Nat
  columns : ChunkColumns
  fits : columns.Fits
  nodup : columns.ids.Nodup
  aligned : 8 ∣ address

namespace PlacedChunk

/-- The same columns at another address. -/
def moved (c : PlacedChunk) (address : Nat) (h : 8 ∣ address) : PlacedChunk :=
  { c with address := address, aligned := h }

/-- Where the fields begin, behind the header. -/
def fieldsStart (c : PlacedChunk) : Nat := c.address + (8 + 6 * c.columns.length)

/-- Where the chunk ends. -/
def stop (c : PlacedChunk) : Nat := c.address + c.columns.totalSize

/-- The header is in memory. -/
def In (c : PlacedChunk) (m : Mem) : Prop :=
  RawChunk.Has (c.columns.layout fun _ => byte 0) m c.address

/-- The fields, in the order of the header. -/
def contents (c : PlacedChunk) (m : Mem) : DataChunk :=
  c.columns.fields.map fun f => (f.oid.toNat, toValue (m.read (c.address + f.offset) f.size.toNat))

/-- Nothing but fields of the chunk has changed. -/
def Keeps (c : PlacedChunk) (m m' : Mem) : Prop := ∀ a, a < c.fieldsStart ∨ c.stop ≤ a → m' a = m a

/-- The columns are columns of the table, with the sizes that they have there. -/
def Of (c : PlacedChunk) (schema : PageSchema) : Prop :=
  ∀ f ∈ c.columns.fields, ∃ column, schema.getColumn f.oid = .ok column ∧
    schema.layout.size column = f.size

variable {c : PlacedChunk} {m m' : Mem}

theorem Keeps.refl (c : PlacedChunk) (m : Mem) : c.Keeps m m := fun _ _ => rfl

theorem Keeps.trans {m'' : Mem} (h : c.Keeps m m') (h' : c.Keeps m' m'') : c.Keeps m m'' :=
  fun a ha => (h' a ha).trans (h a ha)

theorem field_bounds (c : PlacedChunk) (i : c.columns.Idx) :
    c.fieldsStart ≤ c.address + (c.columns.field i).offset ∧
      c.address + (c.columns.field i).offset + (c.columns.field i).size.toNat ≤ c.stop := by
  have hbehind := c.fits.behind_header i
  have hinside := c.fits.inside i
  unfold fieldsStart stop
  omega

theorem In.congr (hin : c.In m) (h : ∀ a, c.address ≤ a → a < c.fieldsStart → m' a = m a) :
    c.In m' := by
  unfold In RawChunk.Has at hin ⊢
  rw [← hin]
  refine Mem.read_congr fun i hi => h _ (Nat.le_add_right _ _) ?_
  rw [c.fits.toNat_headerSize] at hi
  exact Nat.add_lt_add_left hi _

theorem length_header (c : PlacedChunk) : c.columns.header.length = 8 + 6 * c.columns.length := by
  rw [← c.fits.header_eq fun _ => byte 0, Mem.length_read, c.fits.toNat_headerSize]

/-- The header that a layout builds, or that is copied from a chunk. -/
theorem in_header (c : PlacedChunk) (m : Mem) : c.In (m.write c.address c.columns.header) := by
  unfold In RawChunk.Has
  rw [c.fits.header_eq]
  refine Mem.read_write_of_length ?_
  rw [c.length_header, c.fits.toNat_headerSize]

theorem In.keeps (hin : c.In m) (h : c.Keeps m m') : c.In m' :=
  hin.congr fun a _ hlt => h a (.inl hlt)

theorem contents_congr (h : ∀ a, c.fieldsStart ≤ a → a < c.stop → m' a = m a) :
    c.contents m' = c.contents m := by
  refine List.map_congr_left fun f hf => ?_
  obtain ⟨i, rfl⟩ := List.get_of_mem hf
  have hbounds := c.field_bounds i
  refine Prod.ext rfl (congrArg toValue (Mem.read_congr fun k hk => h _ ?_ ?_))
  · exact Nat.le_trans hbounds.1 (Nat.le_add_right _ _)
  · exact Nat.lt_of_lt_of_le (Nat.add_lt_add_left hk _) hbounds.2

theorem ids_eq (c : PlacedChunk) : c.columns.ids = c.columns.fields.map ChunkField.oid := by
  have hmap :=
    congrArg (List.map Prod.fst)
      (ChunkColumns.map_fieldsFrom (DataChunkLayout.headerSize c.columns.length) c.columns)
  rw [List.map_map] at hmap
  exact hmap.symm

theorem getColumnIds_contents (c : PlacedChunk) (m : Mem) :
    (c.contents m).getColumnIds = c.columns.ids.map UInt32.toNat := by
  rw [ids_eq]
  unfold contents DataChunk.getColumnIds
  rw [List.map_map, List.map_map]
  rfl

theorem nodup_contents (c : PlacedChunk) (m : Mem) : (c.contents m).getColumnIds.Nodup := by
  rw [getColumnIds_contents]
  exact c.nodup.map fun _ _ h => UInt32.toNat_inj.mp h

/-- `Get` finds the field. -/
theorem get_contents (c : PlacedChunk) (m : Mem) (i : c.columns.Idx) :
    (c.contents m).get (c.columns.field i).oid.toNat =
    some (toValue
      (m.read (c.address + (c.columns.field i).offset) (c.columns.field i).size.toNat)) :=
  DataChunk.get_eq_of_mem (c.nodup_contents m) (List.mem_map.mpr ⟨_, List.get_mem _ i, rfl⟩)

theorem getElem?_contents (c : PlacedChunk) (m : Mem) (k : Nat) : (c.contents m)[k]? =
    c.columns.fields[k]?.map fun f =>
      (f.oid.toNat, toValue (m.read (c.address + f.offset) f.size.toNat)) :=
  List.getElem?_map

theorem getElem?_field (c : PlacedChunk) (m : Mem) (i : c.columns.Idx) : (c.contents m)[i.val]? =
    some ((c.columns.field i).oid.toNat,
      toValue (m.read (c.address + (c.columns.field i).offset)
        (c.columns.field i).size.toNat)) := by
  rw [getElem?_contents, List.getElem?_eq_getElem i.isLt]
  rfl

theorem length_contents (c : PlacedChunk) (m : Mem) :
    (c.contents m).length = c.columns.fields.length := List.length_map _

/-- The ids and the fields from a column on. -/
theorem drop_ids (c : PlacedChunk) (i : c.columns.Idx) :
    c.columns.ids.drop i = (c.columns.field i).oid :: c.columns.ids.drop (i + 1) := by
  rw [ids_eq, ← List.map_drop, ← List.map_drop, List.drop_eq_getElem_cons i.isLt]
  rfl

theorem drop_contents (c : PlacedChunk) (m : Mem) (i : c.columns.Idx) : (c.contents m).drop i =
    ((c.columns.field i).oid.toNat,
      toValue (m.read (c.address + (c.columns.field i).offset) (c.columns.field i).size.toNat)) ::
      (c.contents m).drop (i + 1) := by
  unfold contents
  rw [← List.map_drop, ← List.map_drop, List.drop_eq_getElem_cons i.isLt]
  rfl

/-- The chunk has these contents now, and no other byte has changed. -/
structure Becomes (c : PlacedChunk) (m m' : Mem) (chunk : DataChunk) : Prop where
  isIn : c.In m'
  contents : c.contents m' = chunk
  keeps : c.Keeps m m'

theorem In.becomes (hin : c.In m) : c.Becomes m m (c.contents m) := ⟨hin, rfl, .refl c m⟩

theorem Becomes.trans {m'' : Mem} {chunk chunk' : DataChunk} (h : c.Becomes m m' chunk)
    (h' : c.Becomes m' m'' chunk') :
    c.Becomes m m'' chunk' :=
  ⟨h'.isIn, h'.contents, h.keeps.trans h'.keeps⟩

/-- A value written to a field. -/
theorem In.becomes_write (hin : c.In m) (i : c.columns.Idx) (value : List Byte)
    (hvalue : value.length = (c.columns.field i).size.toNat) :
    c.Becomes m (m.write (c.address + (c.columns.field i).offset) value)
      ((c.contents m).write (c.columns.field i).oid.toNat (toValue value)) where
  isIn := (c.fits.stored hin i hvalue).has
  contents := by
    have hstored := c.fits.stored hin i hvalue
    have hi : c.columns.fields[i.val]? = some (c.columns.field i) := List.getElem?_eq_getElem i.isLt
    rw [DataChunk.write_eq_set (c.nodup_contents m) (c.getElem?_field m i)]
    refine List.ext_getElem? fun k => ?_
    by_cases hik : i.val = k
    · subst hik
      have hlt : i.val < (c.contents m).length := by simp [PlacedChunk.contents]
      rw [List.getElem?_set_self hlt, getElem?_contents, hi]
      exact congrArg some (Prod.ext rfl (congrArg toValue hstored.value))
    · rw [List.getElem?_set_ne hik, getElem?_contents, getElem?_contents]
      cases hf : c.columns.fields[k]? with
      | none => rfl
      | some f =>
          obtain ⟨hk, rfl⟩ := List.getElem?_eq_some_iff.mp hf
          have hother := hstored.others ⟨k, hk⟩ fun heq => hik (congrArg Fin.val heq).symm
          exact congrArg some (Prod.ext rfl (congrArg toValue hother))
  keeps a ha := by
    have hbounds := c.field_bounds i
    exact Mem.write_outside (by omega)

theorem exists_field {id : UInt32} (h : id ∈ c.columns.ids) :
    ∃ i : c.columns.Idx, (c.columns.field i).oid = id := by
  rw [ids_eq] at h
  obtain ⟨f, hf, rfl⟩ := List.mem_map.mp h
  obtain ⟨i, rfl⟩ := List.get_of_mem hf
  exact ⟨i, rfl⟩

theorem In.finds (hin : c.In m) :
    RawChunk.Finds c.columns (c.columns.layout fun _ => byte 0) m c.address :=
  RawChunk.Has.finds c.fits c.aligned hin c.nodup

/-- `Write` of a value that has the size of the column, which the chunk may not have. -/
theorem In.write (hin : c.In m) {oid : UInt32} {value : List Byte}
    (hvalue : ∀ i : c.columns.Idx, (c.columns.field i).oid = oid →
      value.length = (c.columns.field i).size.toNat) :
    ∃ chunk, c.Becomes m (RawChunk.write m c.address oid value) chunk := by
  by_cases hmem : oid ∈ c.columns.ids
  · obtain ⟨i, rfl⟩ := exists_field hmem
    rw [RawChunk.Has.write_eq c.fits c.aligned hin c.nodup]
    exact ⟨_, hin.becomes_write i value (hvalue i rfl)⟩
  · have hnone : c.columns.ids.idxOf? oid = none := List.idxOf?_eq_none_iff.mpr hmem
    refine ⟨c.contents m, ?_⟩
    unfold RawChunk.write
    rw [hin.finds.columnIds, hnone]
    exact hin.becomes

/-- The chunks have no byte in common. -/
def Apart (c d : PlacedChunk) : Prop := c.stop ≤ d.address ∨ d.stop ≤ c.address

theorem Apart.symm {d : PlacedChunk} (h : c.Apart d) : d.Apart c := Or.symm h

/-- The header ends in the chunk. -/
theorem fieldsStart_le (c : PlacedChunk) : c.fieldsStart ≤ c.stop :=
  Nat.add_le_add_left c.fits.typed.header_le _

theorem address_le (c : PlacedChunk) : c.address ≤ c.fieldsStart := Nat.le_add_right _ _

/-- Nothing outside the chunk has changed. -/
def Within (c : PlacedChunk) (m m' : Mem) : Prop := ∀ a, a < c.address ∨ c.stop ≤ a → m' a = m a

theorem Keeps.within (h : c.Keeps m m') : c.Within m m' := by
  intro a ha
  have haddress := c.address_le
  exact h a (by omega)

/-- Writes to one chunk leave the other. -/
theorem Apart.unchanged {d : PlacedChunk} (h : c.Apart d) (hwithin : c.Within m m') :
    ∀ a, d.address ≤ a → a < d.stop → m' a = m a := by
  intro a hge hlt
  refine hwithin a ?_
  rcases h with h | h <;> omega

theorem Apart.in_congr {d : PlacedChunk} (h : c.Apart d) (hin : d.In m) (hwithin : c.Within m m') :
    d.In m' :=
  hin.congr fun a hge hlt => h.unchanged hwithin a hge (Nat.lt_of_lt_of_le hlt d.fieldsStart_le)

theorem Apart.read_field {d : PlacedChunk} (h : c.Apart d) (hwithin : c.Within m m')
    (i : d.columns.Idx) :
    m'.read (d.address + (d.columns.field i).offset) (d.columns.field i).size.toNat =
      m.read (d.address + (d.columns.field i).offset) (d.columns.field i).size.toNat := by
  have hbounds := d.field_bounds i
  have haddress := d.address_le
  exact Mem.read_congr fun k hk => h.unchanged hwithin _ (by omega) (by omega)

theorem Apart.contents_eq {d : PlacedChunk} (h : c.Apart d) (hwithin : c.Within m m') :
    d.contents m' = d.contents m :=
  contents_congr fun a hge hlt => h.unchanged hwithin a (Nat.le_trans d.address_le hge) hlt

end PlacedChunk

/-! ## `ChunkUtils` -/

/-- `header->count`. -/
def PaxLayout.headerCount (page : Mem) : UInt32 := UInt32.ofNat (ofLE (page.read 0 4))

theorem PaxLayout.headerCount_congr {page page' : Mem} (h : page'.read 0 4 = page.read 0 4) :
    headerCount page' = headerCount page :=
  congrArg (fun bytes => UInt32.ofNat (ofLE bytes)) h

/-- `IncrementHeaderCount`. -/
def PaxLayout.incrementHeaderCount (l : PaxLayout) (page : Mem) (count : UInt32) :
    Except String (UInt32 × Mem) :=
  let old := headerCount page
  let page := page.write 0 (toLE 4 (old + count).toNat)
  if headerCount page < l.maxRowCount then .ok (old, page)
    else .error "Tried to insert more than available in page"

/-- A count that leaves a row passes the assertion; rows and bitmap lie behind it. -/
theorem PageSchema.increment_eq (schema : PageSchema) (page : Mem)
    (hroom : (PaxLayout.headerCount page).toNat + 1 < schema.layout.maxRowCount.toNat) :
    schema.layout.incrementHeaderCount page 1 = .ok (PaxLayout.headerCount page,
        page.write 0 (toLE 4 (PaxLayout.headerCount page + 1).toNat)) ∧
      PaxLayout.headerCount (page.write 0 (toLE 4 (PaxLayout.headerCount page + 1).toNat)) =
        PaxLayout.headerCount page + 1 ∧
      (∀ idx < schema.layout.maxRowCount,
        schema.rowAt (page.write 0 (toLE 4 (PaxLayout.headerCount page + 1).toNat)) idx =
          schema.rowAt page idx) ∧
      ∀ idx < schema.layout.maxRowCount,
        PaxLayout.isDeleted (page.write 0 (toLE 4 (PaxLayout.headerCount page + 1).toNat)) idx =
          PaxLayout.isDeleted page idx := by
  have hsum : (PaxLayout.headerCount page + 1).toNat = (PaxLayout.headerCount page).toNat + 1 := by
    have hmax := schema.layout.maxRowCount.toNat_lt
    rw [UInt32.toNat_add]
    exact Nat.mod_eq_of_lt (by show _ + 1 < 4294967296; omega)
  have hcount :
      PaxLayout.headerCount (page.write 0 (toLE 4 (PaxLayout.headerCount page + 1).toNat)) =
      PaxLayout.headerCount page + 1 := by
    have hlt : (PaxLayout.headerCount page + 1).toNat < 256 ^ 4 := UInt32.toNat_lt _
    unfold PaxLayout.headerCount at hlt ⊢
    rw [Mem.read_write_of_length (length_toLE 4 _), ofLE_toLE, Nat.mod_eq_of_lt hlt,
      UInt32.ofNat_toNat]
  have hbehind : ∀ a, PaxLayout.headerSize.toNat ≤ a →
      page.write 0 (toLE 4 (PaxLayout.headerCount page + 1).toNat) a = page a := by
    intro a ha
    refine Mem.write_of_ge ?_
    rw [length_toLE]
    exact ha
  refine ⟨?_, hcount, ?_, ?_⟩
  · refine if_pos (UInt32.lt_iff_toNat_lt.mpr ?_)
    rw [hcount, hsum]
    exact hroom
  · intro idx hidx
    refine PageSchema.rowAt_congr fun column => Mem.read_congr fun i _ => hbehind _ ?_
    have hbitmap := schema.cellsFit.bitmap idx idx column hidx hidx
    omega
  · intro idx _
    refine PaxLayout.isDeleted_congr (hbehind _ ?_)
    unfold PaxLayout.bitmapByte
    omega

namespace ChunkUtils

section Defs

variable (schema : PageSchema)

/-- `ReadSingleIntoChunk`. -/
def readSingleIntoChunk (page m : Mem) (chunk : Nat) (idx : UInt32) : Except String Mem :=
  (RawChunk.columnIds m chunk).foldlM (fun m id => do
    let column ← schema.getColumn id
    pure (RawChunk.write m chunk id
      (page.read (schema.layout.get column idx) (schema.layout.size column).toNat))) m

/-- `InsertBulk`. -/
def insertBulk (page m : Mem) (chunk : Nat) (itemCount : UInt32) : Except String (UInt32 × Mem) :=
  do
  let counted ← schema.layout.incrementHeaderCount page itemCount
  let page ← (RawChunk.columnIds m chunk).foldlM (fun page id => do
    let column ← schema.getColumn id
    let data ← RawChunk.get m chunk id
    let size := (schema.layout.size column).toUInt32 * itemCount
    pure (schema.layout.insert page (m.read data size.toNat) column counted.1)) counted.2
  pure (counted.1, page)

/-- The loop of `UpdateSingle`: the page, the memory of the chunks, and the iterators over delta and
chunk. -/
structure UpdateLoop where
  page : Mem
  mem : Mem
  deltaIter : ChunkIterator
  chunkIter : ChunkIterator

/-- One column: its cell goes to the delta, then the chunk's field to the cell. -/
def updateColumn (idx : UInt32) (loop : UpdateLoop) (id : UInt32) : Except String UpdateLoop := do
  let column ← schema.getColumn id
  let ptr := schema.layout.get column idx
  let size := (schema.layout.size column).toNat
  let pushed := loop.deltaIter.pushBack loop.mem (loop.page.read ptr size)
  let next := loop.chunkIter.next pushed.1
  pure ⟨loop.page.write ptr (pushed.1.read next.1 size), pushed.1, pushed.2, next.2⟩

/-- `UpdateSingle`. -/
def updateSingle (page m : Mem) (chunk delta : Nat) (idx : UInt32) : Except String (Mem × Mem) := do
  let loop ← (RawChunk.columnIds m chunk).foldlM (updateColumn schema idx)
    ⟨page, m, RawChunk.initIterator m delta, RawChunk.initIterator m chunk⟩
  pure (loop.page, loop.mem)

/-- The inner loop of `Merge`, over the columns of `curr` from `cur_idx` on. -/
def mergeColumn (m : Mem) (curr src : Nat) (newId : UInt32) : Nat → List UInt32 → Except String Mem
  | _, [] => .ok m
  | curIdx, curId :: rest =>
      if curId = newId then do
        let column ← schema.getColumn newId
        pure
          (m.write (RawChunk.access m curr curIdx) (m.read src (schema.layout.size column).toNat))
      else mergeColumn m curr src newId (curIdx + 1) rest

/-- The outer loop of `Merge`, over the columns of `new` from `new_idx` on. -/
def mergeColumns (curr new : Nat) : Nat → List UInt32 → Mem → Except String Mem
  | _, [], m => .ok m
  | newIdx, newId :: rest, m => do
      let m ← mergeColumn schema m curr (RawChunk.access m new newIdx) newId 0
          (RawChunk.columnIds m curr)
      mergeColumns curr new (newIdx + 1) rest m

/-- `Merge`. -/
def merge (m : Mem) (curr new : Nat) : Except String Mem :=
  mergeColumns schema curr new 0 (RawChunk.columnIds m new) m

end Defs

/-! ### What they do to rows and fields -/

section Rules

variable {schema : PageSchema} {c : PlacedChunk} {page m : Mem} {idx : UInt32}

/-- The column of a field. -/
theorem column_of_field (hof : c.Of schema) (i : c.columns.Idx) :
    ∃ column, schema.getColumn (c.columns.field i).oid = .ok column ∧ schema.layout.size column =
      (c.columns.field i).size ∧
      (c.columns.field i).oid.toNat ∈ schema.columns ∧
        column.val = schema.position (c.columns.field i).oid.toNat := by
  obtain ⟨column, hcolumn, hsize⟩ := hof _ (List.get_mem _ i)
  exact ⟨column, hcolumn, hsize, PageSchema.val_of_getColumn hcolumn⟩

theorem columnIds_eq (hin : c.In m) : RawChunk.columnIds m c.address = c.columns.ids :=
  hin.finds.columnIds

/-- The loop of `ReadSingleIntoChunk`. -/
theorem read_loop (page : Mem) (idx : UInt32) (hof : c.Of schema) (ids : List UInt32)
    (hids : ∀ id ∈ ids, id ∈ c.columns.ids) (hin : c.In m) :
    ∃ m', ids.foldlM (fun m id => do
        let column ← schema.getColumn id
        pure
          (RawChunk.write m c.address id
            (page.read (schema.layout.get column idx) (schema.layout.size column).toNat))) m =
          Except.ok m' ∧
      c.Becomes m m' (ids.foldl (fun acc id =>
        acc.write id.toNat (schema.rowAt page idx (schema.position id.toNat))) (c.contents m)) := by
  induction ids generalizing m with
  | nil => exact ⟨m, rfl, hin.becomes⟩
  | cons id ids ih =>
      obtain ⟨i, rfl⟩ := PlacedChunk.exists_field (hids id List.mem_cons_self)
      obtain ⟨column, hcolumn, hsize, -, hpos⟩ := column_of_field hof i
      have hwrite := hin.becomes_write i (schema.layout.cell page idx column)
        (by rw [← hsize]; exact Mem.length_read)
      obtain ⟨m', hloop, hbecomes⟩ :=
        ih (fun id hid => hids id (List.mem_cons_of_mem _ hid)) hwrite.isIn
      rw [hwrite.contents] at hbecomes
      refine ⟨m', ?_, ?_⟩
      · rw [List.foldlM_cons, hcolumn]
        show List.foldlM _ (RawChunk.write m c.address _ _) ids = _
        rw [RawChunk.Has.write_eq c.fits c.aligned hin c.nodup]
        exact hloop
      · rw [List.foldl_cons, ← hpos, PageSchema.rowAt_val]
        exact hwrite.trans hbecomes

/-- `ReadSingleIntoChunk` fills the chunk with the row. -/
theorem read_eq (hof : c.Of schema) (hin : c.In m) (page : Mem) (idx : UInt32) :
    ∃ m', readSingleIntoChunk schema page m c.address idx = .ok m' ∧
      c.Becomes m m'
        (Db7.readSingleIntoChunk schema.toSchema (c.contents m) (schema.rowAt page idx)) := by
  obtain ⟨m', hloop, hbecomes⟩ := read_loop page idx hof c.columns.ids (fun _ h => h) hin
  refine ⟨m', ?_, ?_⟩
  · unfold readSingleIntoChunk
    rw [columnIds_eq hin]
    exact hloop
  · unfold Db7.readSingleIntoChunk
    rw [PlacedChunk.getColumnIds_contents, List.foldl_map]
    exact hbecomes

/-- The loop of `InsertBulk` for one row. -/
theorem insert_loop (hof : c.Of schema) (ids : List UInt32) (hids : ∀ id ∈ ids, id ∈ c.columns.ids)
    (hin : c.In m) (hidx : idx < schema.layout.maxRowCount) (page : Mem) :
    ∃ page', ids.foldlM (fun page id => do
        let column ← schema.getColumn id
        let data ← RawChunk.get m c.address id
        let size := (schema.layout.size column).toUInt32 * 1
        pure (schema.layout.insert page (m.read data size.toNat) column idx)) page =
          Except.ok page' ∧
      schema.RowBecomes idx page page' (ids.foldl (fun acc id =>
        update acc (schema.position id.toNat) (((c.contents m).get id.toNat).getD []))
          (schema.rowAt page idx)) := by
  induction ids generalizing page with
  | nil => exact ⟨page, rfl, .refl idx page⟩
  | cons id ids ih =>
      obtain ⟨i, rfl⟩ := PlacedChunk.exists_field (hids id List.mem_cons_self)
      obtain ⟨column, hcolumn, hsize, -, hpos⟩ := column_of_field hof i
      have hone :
          ((schema.layout.size column).toUInt32 * 1).toNat = (c.columns.field i).size.toNat := by
        rw [UInt32.mul_one, UInt16.toNat_toUInt32, hsize]
      have hwrite := PageSchema.rowBecomes_write page hidx column
        (m.read (c.address + (c.columns.field i).offset) (c.columns.field i).size.toNat)
        (by rw [hsize]; exact Mem.length_read)
      obtain ⟨page', hloop, hbecomes⟩ := ih (fun id hid => hids id (List.mem_cons_of_mem _ hid))
        (page.write (schema.layout.get column idx)
          (m.read (c.address + (c.columns.field i).offset) (c.columns.field i).size.toNat))
      rw [hwrite.row] at hbecomes
      refine ⟨page', ?_, ?_⟩
      · rw [List.foldlM_cons, hcolumn, hin.finds.get i]
        show List.foldlM _ (page.write (schema.layout.get column idx)
          (m.read _ ((schema.layout.size column).toUInt32 * 1).toNat)) ids = _
        rw [hone]
        exact hloop
      · rw [List.foldl_cons, ← hpos, c.get_contents m i]
        exact hwrite.trans hbecomes

/-- `InsertBulk` puts the chunk in the row behind the last one. -/
theorem insert_eq (hof : c.Of schema) (hin : c.In m) (page : Mem)
    (hroom : (PaxLayout.headerCount page).toNat + 1 < schema.layout.maxRowCount.toNat) :
    ∃ page', insertBulk schema page m c.address 1 = .ok (PaxLayout.headerCount page, page') ∧
      PaxLayout.headerCount page' = PaxLayout.headerCount page + 1 ∧
      schema.rowAt page' (PaxLayout.headerCount page) =
        insertRow schema.toSchema (c.contents m) (schema.rowAt page (PaxLayout.headerCount page)) ∧
      (∀ idx < schema.layout.maxRowCount, idx ≠ PaxLayout.headerCount page →
        schema.rowAt page' idx = schema.rowAt page idx) ∧
      ∀ idx < schema.layout.maxRowCount, PaxLayout.isDeleted page' idx =
        PaxLayout.isDeleted page idx := by
  have hidx : PaxLayout.headerCount page < schema.layout.maxRowCount :=
    UInt32.lt_iff_toNat_lt.mpr (by omega)
  obtain ⟨hincrement, hcount, hrows, hbits⟩ := schema.increment_eq page hroom
  obtain ⟨page', hloop, hbecomes⟩ := insert_loop hof c.columns.ids (fun _ h => h) hin hidx
    (page.write 0 (toLE 4 (PaxLayout.headerCount page + 1).toNat))
  refine ⟨page', ?_, ?_, ?_, ?_, ?_⟩
  · unfold insertBulk
    rw [hincrement, columnIds_eq hin]
    exact congrArg (fun r : Except String Mem => r.bind fun page' =>
      .ok (PaxLayout.headerCount page, page')) hloop
  · rw [PaxLayout.headerCount_congr hbecomes.header, hcount]
  · rw [hbecomes.row, hrows _ hidx]
    unfold insertRow
    rw [PlacedChunk.getColumnIds_contents, List.foldl_map]
  · intro idx hlt hne
    rw [hbecomes.others idx hlt hne, hrows idx hlt]
  · intro idx hlt
    rw [hbecomes.bits idx hlt, hbits idx hlt]

section Update

variable {made : Mem} {delta : Nat} {hdelta : 8 ∣ delta}

/-- The delta's and the chunk's iterators after this many columns. -/
def afterColumns (made page m : Mem) (chunk delta k : Nat) : UpdateLoop :=
  ⟨page, m, ChunkIterator.advance^[k] (RawChunk.initIterator made delta),
    ChunkIterator.advance^[k] (RawChunk.initIterator made chunk)⟩

theorem updateColumn_ok {loop : UpdateLoop} {id : UInt32} {column : schema.layout.ColumnIdx}
    {pushed : Mem × ChunkIterator}
    {next : Nat × ChunkIterator} (hcolumn : schema.getColumn id = .ok column)
    (hpushed : loop.deltaIter.pushBack loop.mem (schema.layout.cell loop.page idx column) = pushed)
    (hnext : loop.chunkIter.next pushed.1 = next) : updateColumn schema idx loop id =
      .ok ⟨loop.page.write (schema.layout.get column idx)
      (pushed.1.read next.1 (schema.layout.size column).toNat),
        pushed.1, pushed.2, next.2⟩ := by
  subst hpushed hnext
  unfold updateColumn
  rw [hcolumn]
  rfl

/-- One column of `UpdateSingle`: the delta takes the cell, the cell takes the field. -/
theorem updateColumn_eq (page : Mem) (idx : UInt32) (hmade : c.In made)
    (hmadeDelta : (c.moved delta hdelta).In made) (hin : c.In m)
    (hinDelta : (c.moved delta hdelta).In m) (hapart : (c.moved delta hdelta).Apart c)
    (i : c.columns.Idx) {column : schema.layout.ColumnIdx}
    (hcolumn : schema.getColumn (c.columns.field i).oid = .ok column)
    (hsize : schema.layout.size column = (c.columns.field i).size) :
    updateColumn schema idx (afterColumns made page m c.address delta i) (c.columns.field i).oid =
      .ok (afterColumns made
        (page.write (schema.layout.get column idx)
        (m.read (c.address + (c.columns.field i).offset) (c.columns.field i).size.toNat))
        (m.write (delta + (c.columns.field i).offset) (schema.layout.cell page idx column))
          c.address delta (i + 1)) := by
  have hcell : (schema.layout.cell page idx column).length = (c.columns.field i).size.toNat := by
    rw [← hsize]
    exact Mem.length_read
  have hwrite := hinDelta.becomes_write i _ hcell
  have hpushed : (ChunkIterator.advance^[i] (RawChunk.initIterator made delta)).pushBack m
      (schema.layout.cell page idx column) =
      (m.write (delta + (c.columns.field i).offset) (schema.layout.cell page idx column),
        ChunkIterator.advance^[i + 1] (RawChunk.initIterator made delta)) := by
    have hfield := hinDelta.finds.next made hmadeDelta i
    change ChunkIterator.field m (ChunkIterator.advance^[i] (RawChunk.initIterator made delta)) =
      delta + (c.columns.field i).offset at hfield
    unfold ChunkIterator.pushBack
    rw [hfield, Function.iterate_succ_apply']
  have hnext :
      ∀ m', c.In m' → (ChunkIterator.advance^[i] (RawChunk.initIterator made c.address)).next m' =
      (c.address + (c.columns.field i).offset,
        ChunkIterator.advance^[i + 1] (RawChunk.initIterator made c.address)) := by
    intro m' hin'
    have hfield := hin'.finds.next made hmade i
    rw [Function.iterate_succ_apply']
    exact Prod.ext hfield rfl
  have hread := hapart.read_field hwrite.keeps.within i
  refine (updateColumn_ok hcolumn hpushed (hnext _ (hapart.in_congr hin hwrite.keeps.within))).trans
    ?_
  rw [hsize]
  exact congrArg
    (fun value => Except.ok (afterColumns made (page.write _ value) _ c.address delta (i + 1)))
    hread

/-- The loop of `UpdateSingle` from a column on. -/
theorem update_loop (hof : c.Of schema) (hidx : idx < schema.layout.maxRowCount) (hmade : c.In made)
    (hmadeDelta : (c.moved delta hdelta).In made) (hapart : (c.moved delta hdelta).Apart c)
    (n k : Nat)
    (hk : k + n = c.columns.fields.length) (hin : c.In m) (hinDelta : (c.moved delta hdelta).In m)
    (page : Mem) :
    ∃ page' m', (c.columns.ids.drop k).foldlM (updateColumn schema idx)
    (afterColumns made page m c.address delta k) =
        .ok (afterColumns made page' m' c.address delta (k + n)) ∧
      schema.RowBecomes idx page page'
        (Db7.updateSingle schema.toSchema ((c.contents m).drop k) (schema.rowAt page idx)).2 ∧
      (c.moved delta hdelta).Becomes m m' (((c.moved delta hdelta).contents m).take k ++
        (Db7.updateSingle schema.toSchema ((c.contents m).drop k) (schema.rowAt page idx)).1) := by
  induction n generalizing k m page with
  | zero =>
      have hids : c.columns.ids.drop k = [] := by
        rw [c.ids_eq, List.drop_eq_nil_iff, List.length_map]
        omega
      have hcontents : (c.contents m).drop k = [] := by
        rw [List.drop_eq_nil_iff, c.length_contents]
        omega
      have htake :
          ((c.moved delta hdelta).contents m).take k = (c.moved delta hdelta).contents m := by
        rw [List.take_eq_self_iff, (c.moved delta hdelta).length_contents]
        exact Nat.le_of_eq hk.symm
      rw [hids, hcontents, htake]
      refine ⟨page, m, rfl, .refl idx page, ?_⟩
      show (c.moved delta hdelta).Becomes m m (_ ++ [])
      rw [List.append_nil]
      exact hinDelta.becomes
  | succ n ih =>
      have hlt : k < c.columns.fields.length := by omega
      obtain ⟨column, hcolumn, hsize, -, hpos⟩ := column_of_field hof ⟨k, hlt⟩
      have hstep :=
        updateColumn_eq page idx hmade hmadeDelta hin hinDelta hapart ⟨k, hlt⟩ hcolumn hsize
      have hrow := PageSchema.rowBecomes_write page hidx column
        (m.read (c.address + (c.columns.field ⟨k, hlt⟩).offset)
          (c.columns.field ⟨k, hlt⟩).size.toNat)
        (by rw [hsize]; exact Mem.length_read)
      have hdeltaField :=
        hinDelta.becomes_write (show (c.moved delta hdelta).columns.Idx from ⟨k, hlt⟩)
        (schema.layout.cell page idx column)
        (by show _ = (c.columns.field ⟨k, hlt⟩).size.toNat; rw [← hsize]; exact Mem.length_read)
      obtain ⟨page', m', hloop, hrow', hdelta'⟩ := ih (k + 1) (by omega)
        (hapart.in_congr hin hdeltaField.keeps.within) hdeltaField.isIn
        (page.write (schema.layout.get column idx)
          (m.read (c.address + (c.columns.field ⟨k, hlt⟩).offset)
            (c.columns.field ⟨k, hlt⟩).size.toNat))
      rw [hrow.row, hapart.contents_eq hdeltaField.keeps.within, hpos] at hrow' hdelta'
      refine ⟨page', m', ?_, ?_, ?_⟩
      · rw [c.drop_ids ⟨k, hlt⟩, List.foldlM_cons]
        refine (congrArg (fun r : Except String UpdateLoop => r.bind _) hstep).trans ?_
        rw [Nat.add_right_comm] at hloop
        exact hloop
      · rw [c.drop_contents m ⟨k, hlt⟩]
        rw [hpos] at hrow
        exact hrow.trans hrow'
      · rw [hdeltaField.contents, DataChunk.take_write ((c.moved delta hdelta).nodup_contents m)
          ((c.moved delta hdelta).getElem?_field m ⟨k, hlt⟩), List.append_assoc] at hdelta'
        rw [c.drop_contents m ⟨k, hlt⟩]
        refine hdeltaField.trans
          (show (c.moved delta hdelta).Becomes _ _ (_ ++ (_, schema.rowAt page idx _) :: _) from ?_)
        rw [← hpos, PageSchema.rowAt_val]
        rw [← hpos] at hdelta'
        exact hdelta'

/-- `UpdateSingle` fills the delta with the old values of the row's columns, and the row with those
of the chunk. -/
theorem update_eq (hof : c.Of schema) (hidx : idx < schema.layout.maxRowCount) (hin : c.In m)
    (hinDelta : (c.moved delta hdelta).In m) (hapart : (c.moved delta hdelta).Apart c)
    (page : Mem) :
    ∃ page' m', updateSingle schema page m c.address delta idx = .ok (page', m') ∧
      schema.RowBecomes idx page page'
        (Db7.updateSingle schema.toSchema (c.contents m) (schema.rowAt page idx)).2 ∧
      (c.moved delta hdelta).Becomes m m'
        (Db7.updateSingle schema.toSchema (c.contents m) (schema.rowAt page idx)).1 := by
  obtain ⟨page', m', hloop, hrow, hbecomes⟩ :=
    update_loop hof hidx hin hinDelta hapart c.columns.fields.length 0
    (Nat.zero_add _) hin hinDelta page
  rw [List.drop_zero] at hloop hrow hbecomes
  refine ⟨page', m', ?_, hrow, hbecomes⟩
  unfold updateSingle
  rw [columnIds_eq hin]
  exact congrArg (fun r : Except String UpdateLoop => r.bind fun loop => .ok (loop.page, loop.mem))
    hloop

end Update

section Merge

variable {d : PlacedChunk} {src : Nat} {newId : UInt32}

theorem mergeColumn_of_notMem {curr : Nat} {ids : List UInt32} (h : newId ∉ ids) (curIdx : Nat) :
    mergeColumn schema m curr src newId curIdx ids = .ok m := by
  induction ids generalizing curIdx with
  | nil => rfl
  | cons id ids ih =>
      obtain ⟨hne, hrest⟩ := not_or.mp (mt List.mem_cons.mpr h)
      unfold mergeColumn
      rw [if_neg (Ne.symm hne)]
      exact ih hrest _

theorem mergeColumn_of_idxOf {curr : Nat} {ids : List UInt32} {k : Nat}
    {column : schema.layout.ColumnIdx}
    (h : ids.idxOf? newId = some k) (hcolumn : schema.getColumn newId = .ok column) (curIdx : Nat) :
    mergeColumn schema m curr src newId curIdx ids =
      .ok (m.write (RawChunk.access m curr (curIdx + k))
      (m.read src (schema.layout.size column).toNat)) := by
  induction ids generalizing curIdx k with
  | nil => simp at h
  | cons id ids ih =>
      unfold mergeColumn
      rw [List.idxOf?_cons] at h
      by_cases heq : id = newId
      · rw [if_pos (by simpa using heq)] at h
        obtain rfl := Option.some.inj h
        rw [if_pos heq, hcolumn]
        rfl
      · rw [if_neg (by simpa using heq)] at h
        obtain ⟨j, hj, rfl⟩ := Option.map_eq_some_iff.mp h
        rw [if_neg heq, ih hj, Nat.add_right_comm, Nat.add_assoc]

/-- The inner loop of `Merge` for a column of `new`. -/
theorem mergeColumn_eq (hofC : c.Of schema) (hofD : d.Of schema) (hin : c.In m)
    (i : d.columns.Idx) :
    ∃ m', mergeColumn schema m c.address (d.address + (d.columns.field i).offset)
    (d.columns.field i).oid 0 c.columns.ids =
        .ok m' ∧
      c.Becomes m m' ((c.contents m).write (d.columns.field i).oid.toNat
        (toValue
          (m.read (d.address + (d.columns.field i).offset) (d.columns.field i).size.toNat))) := by
  by_cases hmem : (d.columns.field i).oid ∈ c.columns.ids
  · obtain ⟨j, hj⟩ := PlacedChunk.exists_field hmem
    obtain ⟨column, hcolumn, hsize, -⟩ := column_of_field hofD i
    obtain ⟨column', hcolumn', hsize', -⟩ := column_of_field hofC j
    obtain rfl : column' = column :=
      Except.ok.inj (hcolumn'.symm.trans ((congrArg schema.getColumn hj).trans hcolumn))
    have hwrite := hin.becomes_write j
      (m.read (d.address + (d.columns.field i).offset) (d.columns.field i).size.toNat)
      (by rw [← hsize', hsize]; exact Mem.length_read)
    refine ⟨_, ?_, hj ▸ hwrite⟩
    rw [mergeColumn_of_idxOf (hj ▸ ChunkColumns.idxOf_eq j c.nodup) hcolumn, Nat.zero_add,
      hin.finds.access, hsize]
  · refine ⟨m, mergeColumn_of_notMem hmem 0, ?_⟩
    rw [DataChunk.write_of_notMem]
    · exact hin.becomes
    · rw [PlacedChunk.getColumnIds_contents]
      intro h
      obtain ⟨id, hid, heq⟩ := List.mem_map.mp h
      exact hmem (UInt32.toNat_inj.mp heq ▸ hid)

/-- The outer loop of `Merge` from a column on. -/
theorem merge_loop (hofC : c.Of schema) (hofD : d.Of schema) (hapart : c.Apart d) (n k : Nat)
    (hk : k + n = d.columns.fields.length) (hin : c.In m) (hinD : d.In m) :
    ∃ m', mergeColumns schema c.address d.address k (d.columns.ids.drop k) m = .ok m' ∧
      c.Becomes m m' (Db7.merge (c.contents m) ((d.contents m).drop k)) := by
  induction n generalizing k m with
  | zero =>
      have hids : d.columns.ids.drop k = [] := by
        rw [d.ids_eq, List.drop_eq_nil_iff, List.length_map]
        omega
      have hcontents : (d.contents m).drop k = [] := by
        rw [List.drop_eq_nil_iff, d.length_contents]
        omega
      rw [hids, hcontents]
      exact ⟨m, rfl, hin.becomes⟩
  | succ n ih =>
      have hlt : k < d.columns.fields.length := by omega
      obtain ⟨m₁, hcolumn, hwrite⟩ := mergeColumn_eq hofC hofD hin ⟨k, hlt⟩
      obtain ⟨m', hloop, hbecomes⟩ :=
        ih (k + 1) (by omega) hwrite.isIn (hapart.in_congr hinD hwrite.keeps.within)
      rw [hwrite.contents, hapart.contents_eq hwrite.keeps.within] at hbecomes
      refine ⟨m', ?_, ?_⟩
      · rw [d.drop_ids ⟨k, hlt⟩]
        unfold mergeColumns
        rw [columnIds_eq hin, hinD.finds.access ⟨k, hlt⟩, hcolumn]
        exact hloop
      · rw [d.drop_contents m ⟨k, hlt⟩]
        exact hwrite.trans hbecomes

/-- `Merge` overwrites the fields of the columns that the other chunk has, too. -/
theorem merge_eq (hofC : c.Of schema) (hofD : d.Of schema) (hapart : c.Apart d) (hin : c.In m)
    (hinD : d.In m) :
    ∃ m', merge schema m c.address d.address = .ok m' ∧
      c.Becomes m m' (Db7.merge (c.contents m) (d.contents m)) := by
  unfold merge
  rw [columnIds_eq hinD]
  exact merge_loop hofC hofD hapart d.columns.fields.length 0 (Nat.zero_add _) hin hinD

end Merge

end Rules

end ChunkUtils

end Db7
