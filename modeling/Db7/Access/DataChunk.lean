import Mathlib.Logic.Function.Basic
import Mathlib.Data.List.Basic
import Mathlib.Data.List.Nodup

/-!
# Schemas, chunks and rows

A chunk is an ordered list of fields, each a column oid with its bytes; the
byte offsets inside a chunk play no part here. A row is the cells of one tuple
on its page, indexed by column position: the page layout gives each column of
each row its own cell of `GetTypeSize()` bytes, read and written whole.
-/

namespace Db7

/-- `catalog::col_oid_t`. -/
abbrev ColOid := Nat

/-- The bytes of one column value. -/
abbrev Value := List UInt8

/-- The cells of one tuple on its page, by column position. -/
abbrev Row := Nat → Value

/-- `access::Schema`: the columns in position order. The mapping is keyed by
oid, so the oids are distinct. -/
structure Schema where
  columns : List ColOid
  nodup : columns.Nodup

/-- `GetColumn(id).GetPosiiton()`. -/
def Schema.position (schema : Schema) (id : ColOid) : Nat := schema.columns.idxOf id

theorem Schema.position_inj {schema : Schema} {a b : ColOid} (ha : a ∈ schema.columns)
    (h : schema.position a = schema.position b) : a = b :=
  (List.idxOf_inj ha).mp h

/-- `access::DataChunk`: column ids with the bytes of their fields. -/
abbrev DataChunk := List (ColOid × Value)

namespace DataChunk

/-- `GetColumnIds`. -/
def getColumnIds (chunk : DataChunk) : List ColOid := chunk.map Prod.fst

/-- `Write(oid, bytes)`: the first field of that column. -/
def write : DataChunk → ColOid → Value → DataChunk
  | [], _, _ => []
  | (id, v) :: rest, oid, new =>
      if id = oid then (id, new) :: rest else (id, v) :: write rest oid new

/-- `Get(oid)`, the bytes of the first field of that column; the code throws
where this is `none`. -/
def get : DataChunk → ColOid → Option Value
  | [], _ => none
  | (id, v) :: rest, oid => if id = oid then some v else get rest oid

@[simp] theorem getColumnIds_write (chunk : DataChunk) (oid : ColOid) (v : Value) :
    (chunk.write oid v).getColumnIds = chunk.getColumnIds := by
  induction chunk with
  | nil => rfl
  | cons f rest ih =>
      obtain ⟨id, w⟩ := f
      by_cases h : id = oid
      · simp [write, getColumnIds, h]
      · simpa [write, getColumnIds, h] using ih

theorem get_eq_none {chunk : DataChunk} {oid : ColOid} (h : oid ∉ chunk.getColumnIds) :
    chunk.get oid = none := by
  induction chunk with
  | nil => rfl
  | cons f rest ih =>
      obtain ⟨id, w⟩ := f
      simp only [getColumnIds, List.map_cons, List.mem_cons, not_or] at h
      simp [get, Ne.symm h.1, ih h.2]

theorem get_write_self {chunk : DataChunk} {oid : ColOid} (v : Value)
    (h : oid ∈ chunk.getColumnIds) : (chunk.write oid v).get oid = some v := by
  induction chunk with
  | nil => simp [getColumnIds] at h
  | cons f rest ih =>
      obtain ⟨id, w⟩ := f
      by_cases hid : id = oid
      · simp [write, get, hid]
      · have hrest : oid ∈ getColumnIds rest := by
          simpa [getColumnIds, Ne.symm hid] using h
        simp [write, get, hid, ih hrest]

theorem get_write_ne {chunk : DataChunk} {oid other : ColOid} (v : Value)
    (h : other ≠ oid) : (chunk.write oid v).get other = chunk.get other := by
  induction chunk with
  | nil => rfl
  | cons f rest ih =>
      obtain ⟨id, w⟩ := f
      by_cases hid : id = oid
      · subst hid
        simp [write, get, Ne.symm h]
      · by_cases ho : id = other
        · subst ho
          simp [write, get, h]
        · simp [write, get, hid, ho, ih]

end DataChunk

/-! ## `ChunkUtils` -/

/-- `ChunkUtils::ReadSingleIntoChunk`: every field of the chunk takes the cell
of its column. -/
def readSingleIntoChunk (schema : Schema) (chunk : DataChunk) (row : Row) : DataChunk :=
  chunk.getColumnIds.foldl (fun acc id => acc.write id (row (schema.position id))) chunk

/-- `ChunkUtils::UpdateSingle`: field by field, the old cell goes to the delta
and the new value to the page. The delta has the header of the chunk. -/
def updateSingle (schema : Schema) : DataChunk → Row → DataChunk × Row
  | [], row => ([], row)
  | (id, v) :: rest, row =>
      let pos := schema.position id
      let next := updateSingle schema rest (Function.update row pos v)
      ((id, row pos) :: next.1, next.2)

/-- `ChunkUtils::Merge`: every field of `new` overwrites the field of the same
column in `curr`, if there is one. -/
def merge (curr new : DataChunk) : DataChunk :=
  new.foldl (fun acc f => acc.write f.1 f.2) curr

/-- `ChunkUtils::InsertBulk` of one row: every column of the chunk writes what
`Get` returns for it into its cell. -/
def insertRow (schema : Schema) (chunk : DataChunk) (row : Row) : Row :=
  chunk.getColumnIds.foldl (fun acc id =>
    Function.update acc (schema.position id) ((chunk.get id).getD [])) row

@[simp] theorem getColumnIds_merge (curr new : DataChunk) :
    (merge curr new).getColumnIds = curr.getColumnIds := by
  unfold merge
  induction new generalizing curr with
  | nil => rfl
  | cons f rest ih => simp [ih]

@[simp] theorem getColumnIds_updateSingle (schema : Schema) (chunk : DataChunk) (row : Row) :
    (updateSingle schema chunk row).1.getColumnIds = chunk.getColumnIds := by
  induction chunk generalizing row with
  | nil => rfl
  | cons f rest ih => simpa [updateSingle, DataChunk.getColumnIds] using ih _

/-! ## What the loops compute, column by column -/

theorem DataChunk.get_isSome {chunk : DataChunk} {oid : ColOid} (h : oid ∈ chunk.getColumnIds) :
    ∃ v, chunk.get oid = some v := by
  induction chunk with
  | nil => simp [getColumnIds] at h
  | cons f rest ih =>
      obtain ⟨id, v⟩ := f
      by_cases hid : id = oid
      · exact ⟨v, by simp [get, hid]⟩
      · have hrest : oid ∈ getColumnIds rest := by
          simpa [getColumnIds, Ne.symm hid] using h
        simpa [get, hid] using ih hrest

theorem get_foldl_write (row : ColOid → Value) (ids : List ColOid) {chunk : DataChunk}
    {oid : ColOid} (h : oid ∈ chunk.getColumnIds) :
    (ids.foldl (fun acc id => acc.write id (row id)) chunk).get oid =
      if oid ∈ ids then some (row oid) else chunk.get oid := by
  induction ids generalizing chunk with
  | nil => rfl
  | cons id rest ih =>
      rw [List.foldl_cons, ih (by simpa using h)]
      by_cases hid : oid = id
      · subst hid
        simp [DataChunk.get_write_self _ h]
      · simp [hid, DataChunk.get_write_ne _ hid]

theorem get_readSingleIntoChunk {schema : Schema} {chunk : DataChunk} {row : Row} {oid : ColOid}
    (h : oid ∈ chunk.getColumnIds) :
    (readSingleIntoChunk schema chunk row).get oid = some (row (schema.position oid)) := by
  rw [readSingleIntoChunk, get_foldl_write (fun id => row (schema.position id)) _ h, if_pos h]

theorem getColumnIds_foldl_write (row : ColOid → Value) (ids : List ColOid) (chunk : DataChunk) :
    (ids.foldl (fun acc id => acc.write id (row id)) chunk).getColumnIds =
      chunk.getColumnIds := by
  induction ids generalizing chunk with
  | nil => rfl
  | cons id rest ih => simp [ih]

@[simp] theorem getColumnIds_readSingleIntoChunk (schema : Schema) (chunk : DataChunk)
    (row : Row) : (readSingleIntoChunk schema chunk row).getColumnIds = chunk.getColumnIds :=
  getColumnIds_foldl_write (fun id => row (schema.position id)) _ _

/-- `Merge` takes the columns that the delta has and keeps the others. -/
theorem get_merge {curr new : DataChunk} {oid : ColOid} (h : oid ∈ curr.getColumnIds)
    (hnd : new.getColumnIds.Nodup) :
    (merge curr new).get oid = (new.get oid).orElse fun _ => curr.get oid := by
  induction new generalizing curr with
  | nil => rfl
  | cons f rest ih =>
      obtain ⟨id, v⟩ := f
      obtain ⟨hid, hrest⟩ := List.nodup_cons.mp hnd
      have hstep : merge curr ((id, v) :: rest) = merge (curr.write id v) rest := rfl
      rw [hstep, ih (by simpa using h) hrest]
      by_cases he : id = oid
      · subst he
        rw [DataChunk.get_eq_none hid]
        simp [DataChunk.get, DataChunk.get_write_self v h]
      · simp [DataChunk.get, he, DataChunk.get_write_ne v (Ne.symm he)]

/-- The columns of a chunk: distinct ones of the schema. -/
def DataChunk.Fits (schema : Schema) (chunk : DataChunk) : Prop :=
  chunk.getColumnIds.Nodup ∧ ∀ id ∈ chunk.getColumnIds, id ∈ schema.columns

instance (schema : Schema) (chunk : DataChunk) : Decidable (chunk.Fits schema) :=
  inferInstanceAs (Decidable (_ ∧ _))

theorem DataChunk.Fits.tail {schema : Schema} {f : ColOid × Value} {rest : DataChunk}
    (h : Fits schema (f :: rest)) : Fits schema rest :=
  ⟨(List.nodup_cons.mp h.1).2, fun id hid => h.2 id (List.mem_cons_of_mem _ hid)⟩

/-- `UpdateSingle` writes the columns of the chunk and no others. -/
theorem updateSingle_row {schema : Schema} {chunk : DataChunk} (hf : chunk.Fits schema)
    (row : Row) {oid : ColOid} (h : oid ∈ schema.columns) :
    (updateSingle schema chunk row).2 (schema.position oid) =
      (chunk.get oid).getD (row (schema.position oid)) := by
  induction chunk generalizing row with
  | nil => rfl
  | cons f rest ih =>
      obtain ⟨id, v⟩ := f
      simp only [updateSingle, ih hf.tail, DataChunk.get]
      by_cases hid : id = oid
      · subst hid
        rw [DataChunk.get_eq_none (List.nodup_cons.mp hf.1).1]
        simp
      · have hpos : schema.position oid ≠ schema.position id := fun heq =>
          hid (schema.position_inj h heq).symm
        simp [hid, hpos]

/-- The first field of a column in the delta holds what the column held before. -/
theorem get_updateSingle {schema : Schema} {chunk : DataChunk} (row : Row) {oid : ColOid}
    (h : oid ∈ chunk.getColumnIds) (hs : oid ∈ schema.columns) :
    (updateSingle schema chunk row).1.get oid = some (row (schema.position oid)) := by
  induction chunk generalizing row with
  | nil => simp [DataChunk.getColumnIds] at h
  | cons f rest ih =>
      obtain ⟨id, v⟩ := f
      simp only [updateSingle, DataChunk.get]
      by_cases hid : id = oid
      · simp [hid]
      · have hrest : oid ∈ DataChunk.getColumnIds rest := by
          simpa [DataChunk.getColumnIds, Ne.symm hid] using h
        have hpos : schema.position oid ≠ schema.position id := fun heq =>
          hid (schema.position_inj hs heq).symm
        simp [hid, ih _ hrest, hpos]

/-- The delta holds what the columns of the chunk held before. -/
theorem updateSingle_delta {schema : Schema} {chunk : DataChunk} (hf : chunk.Fits schema)
    (row : Row) {oid : ColOid} (h : oid ∈ chunk.getColumnIds) :
    (updateSingle schema chunk row).1.get oid = some (row (schema.position oid)) :=
  get_updateSingle row h (hf.2 oid h)

/-- `InsertBulk` writes the columns of the chunk and no others. -/
theorem insertRow_apply {schema : Schema} {chunk : DataChunk} (row : Row) {oid : ColOid}
    (h : oid ∈ schema.columns) :
    insertRow schema chunk row (schema.position oid) =
      (chunk.get oid).getD (row (schema.position oid)) := by
  have hfold : ∀ (ids : List ColOid) (acc : Row),
      ids.foldl (fun acc id =>
        Function.update acc (schema.position id) ((chunk.get id).getD [])) acc
        (schema.position oid) =
      if oid ∈ ids then (chunk.get oid).getD [] else acc (schema.position oid) := by
    intro ids
    induction ids with
    | nil => intro acc; rfl
    | cons id rest ih =>
        intro acc
        rw [List.foldl_cons, ih]
        by_cases hid : oid = id
        · subst hid; simp
        · have hpos : schema.position oid ≠ schema.position id := fun heq =>
            hid (schema.position_inj h heq)
          simp [hid, hpos]
  rw [insertRow, hfold]
  by_cases hmem : oid ∈ chunk.getColumnIds
  · obtain ⟨v, hv⟩ := DataChunk.get_isSome hmem
    simp [hmem, hv]
  · simp [hmem, DataChunk.get_eq_none hmem]

end Db7
