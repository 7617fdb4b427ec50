import Db7.Access.Visibility
import Db7.Catalog.Invariants

/-!
# The columns of a class, read back

`CreateTable` leaves one row of `pg_attribute` for each column, and a reader takes
each cell at its declared type. Two of the cells are not what the reader expects:
`ATTNOTNULL` is given `IsNullable`, and of the four bytes of `ATTTYPID` one is
written. So the rows decode to the schema only when there are none
(`createTable_reads_back`).
-/

namespace Db7

open Lib Function CatalogColumnOid Value DataChunkBuilder

/-- A row of `pg_attribute`, as far as it describes the column. -/
structure AttributeRow where
  name : List Byte
  typeId : Nat
  length : Nat
  notNull : Bool
  deriving DecidableEq, Repr

namespace AttributeRow

/-- The memory of a cell: the bytes that were written, and what the memory of the
chunk held behind them. -/
def cell (behind : ColOid → Mem) (chunk : DataChunk) (c : ColOid) : Mem :=
  (behind c).write 0 ((chunk.get c).getD []).bytes

/-- The cells read at the types of `CreateAttributeSchema`. -/
def decode (behind : ColOid → Mem) (chunk : DataChunk) : AttributeRow where
  name := (cell behind chunk attname).read 4 (loadLE (cell behind chunk attname) 4)
  typeId := loadLE (cell behind chunk atttypid) TypeId.integer.sizeOf
  length := loadLE (cell behind chunk attlen) TypeId.smallint.sizeOf
  notNull := loadLE (cell behind chunk attnotnull) TypeId.boolean.sizeOf ≠ 0

/-- `ATTRELID`. -/
def relOid (behind : ColOid → Mem) (chunk : DataChunk) : Nat :=
  loadLE (cell behind chunk attrelid) TypeId.integer.sizeOf

/-- The row that describes a column. -/
def ofColumn (column : SchemaColumn) : AttributeRow :=
  ⟨column.name, column.type.code, column.type.sizeOf, !column.isNullable⟩

variable {chunk : DataChunk} {c : ColOid}

theorem cell_eq (behind : ColOid → Mem) {v : Value} (h : chunk.get c = some v) :
    cell behind chunk c = (behind c).write 0 v.bytes := by
  unfold cell
  rw [h]
  rfl

theorem loadLE_cell (behind : ColOid → Mem) {w n : Nat} (h : chunk.get c = some (number w n)) :
    loadLE (cell behind chunk c) w = n % 256 ^ w := by
  rw [cell_eq behind h, number, bytes_ofBytes, KeyNormEncoder.loadLE_write]

end AttributeRow

namespace DatabaseCatalog

variable {env : CatalogEnv} {t : TxnId} {s s' s₀ : DatabaseCatalog} {chunk : DataChunk}
  {tbl : CatalogTable} {steps : List EntryStep} {tid : TupleId} {slot : Slot}
    {behind : TupleId → ColOid → Mem} {oid : Oid}

/-! ## Reading -/

/-- `SelectIntoChunk` of a row of `pg_attribute`. -/
def readAttribute (s : DatabaseCatalog) (t : TxnId) (tid : TupleId) : RowStatus × DataChunk :=
  s.db.selectIntoChunk (s.db.txns t) (tid.slot CatalogTable.attributes.oid)
    CatalogTable.attributes.createDataChunk

/-- A row that is visible to `t` and belongs to the class. `behind` is what the memory
of the chunks held that the rows were built in. -/
structure AttributeOf (s : DatabaseCatalog) (t : TxnId)
    (behind : TupleId → ColOid → Mem) (oid : Oid) (tid : TupleId) : Prop where
  allocated : s.Allocated tid CatalogTable.attributes.oid
  visible : (s.readAttribute t tid).1 = .visible
  relOid : AttributeRow.relOid (behind tid) (s.readAttribute t tid).2 = oid.toNat

/-- The rows of the class describe the columns: one row each. -/
def ReadsBack (s : DatabaseCatalog) (t : TxnId) (behind : TupleId → ColOid → Mem) (oid : Oid)
    (schema : SchemaColumns) : Prop :=
  ∃ tids : List TupleId, tids.Nodup ∧ (∀ tid, s.AttributeOf t behind oid tid ↔ tid ∈ tids) ∧
    List.Forall₂ (fun tid column =>
      AttributeRow.decode (behind tid) (s.readAttribute t tid).2 = .ofColumn column) tids schema

/-- What a reader is told about a tuple is the same. -/
structure SameRow (t : TxnId) (s s' : DatabaseCatalog) (slot : Slot) : Prop where
  chain : s'.db.chain slot = s.db.chain slot
  rows : s'.db.rows slot = s.db.rows slot
  bit : s'.db.deletedBit slot = s.db.deletedBit slot
  schema : s'.db.schema = s.db.schema
  times : SameTimes t s s'

theorem SameRow.refl : SameRow t s s slot := ⟨rfl, rfl, rfl, rfl, rfl, rfl⟩

theorem SameRow.trans (h : SameRow t s₀ s slot) (h' : SameRow t s s' slot) : SameRow t s₀ s' slot :=
  ⟨h'.chain.trans h.chain, h'.rows.trans h.rows, h'.bit.trans h.bit, h'.schema.trans h.schema,
    h'.times.1.trans h.times.1, h'.times.2.trans h.times.2⟩

/-- Only the lock, the counters and the like are different. -/
theorem SameRow.of_db (h : s'.db = s.db) : SameRow t s s' slot := by
  constructor <;> (try rw [h])
  exact ⟨by rw [h], by rw [h]⟩

theorem SameRow.readAttribute (h : SameRow t s s' (tid.slot CatalogTable.attributes.oid)) :
    s'.readAttribute t tid = s.readAttribute t tid := by
  unfold DatabaseCatalog.readAttribute Db.selectIntoChunk
  rw [h.chain, h.rows, h.bit, h.schema, h.times.1, h.times.2]

/-- An insert fills another tuple. -/
theorem sameRow_entered (hw : s.WellFormed) (hne : slot ≠ (s.nextTid env tbl).slot tbl.oid) :
    SameRow t s (s.entered env t tbl chunk steps) slot := by
  have hversions : (s.entered env t tbl chunk steps).db.versions slot = s.db.versions slot := by
    rw [db_entered]
    exact update_of_ne hne ..
  have hundo : ∀ u, ∃ new, ((s.entered env t tbl chunk steps).db.txns u).undo =
      (s.db.txns u).undo ++ new := by
    rw [db_entered]
    exact Db.undo_insertTuple
  refine ⟨Db.chain_of_append (hw.chains slot) hversions hundo, ?_, ?_, ?_, sameTimes_entered⟩
  · rw [db_entered]
    exact update_of_ne hne ..
  · rw [db_entered]
    rfl
  · rw [db_entered]
    rfl

theorem Allocated.ne_nextTid {tblId : Nat} (h : s.Allocated tid tblId) :
    tid.slot tblId ≠ (s.nextTid env tbl).slot tbl.oid := by
  intro heq
  obtain ⟨rfl, rfl⟩ := TupleId.slot_inj.mp heq
  exact Nat.lt_irrefl _ h

/-- A row of `pg_attribute` since `s₀`. -/
structure RowKept (t : TxnId) (s₀ : DatabaseCatalog) (tid : TupleId) (s : DatabaseCatalog) :
    Prop where
  sound : SoundFor t s
  allocated : s.Allocated tid CatalogTable.attributes.oid
  row : SameRow t s₀ s (tid.slot CatalogTable.attributes.oid)

theorem RowKept.of_same (h : RowKept t s₀ tid s) (hdb : s'.db = s.db) (hfsm : s'.fsm = s.fsm)
    (hindexes : s'.indexes = s.indexes) : RowKept t s₀ tid s' where
  sound := h.sound.of_same hdb hfsm hindexes
  allocated := by
    unfold Allocated
    rw [hdb]
    exact h.allocated
  row := h.row.trans (.of_db hdb)

theorem RowKept.entered (h : RowKept t s₀ tid s) (hsteps : StepsOf tbl steps)
    (hpass : ∀ step ∈ steps, step.passes env t s chunk = true) :
    RowKept t s₀ tid (s.entered env t tbl chunk steps) where
  sound := sound_entered h.sound hsteps hpass
  allocated := (grows_entered h.sound.1.wellFormed).allocated h.allocated
  row := h.row.trans (sameRow_entered h.sound.1.wellFormed h.allocated.ne_nextTid)

theorem kept_rowKept : Kept env t (fun _ => True) (RowKept t s₀ tid) where
  lock _ _ _ hs := hs.of_same rfl rfl rfl
  namespaceOid _ hs := hs.of_same rfl rfl rfl
  classOid _ hs := hs.of_same rfl rfl rfl
  attributeOid _ hs := hs.of_same rfl rfl rfl
  constraintOid _ hs := hs.of_same rfl rfl rfl
  entry _ _ _ hsep hsteps _ :=
    ends_insertEntry (fun _ hs => hs.sound.1.wellFormed) (fun _ _ hs => hs.entered) hsep hsteps

/-! ## The row of a column -/

/-- The reader's own insert is visible, and its cells hold the fields of the chunk. -/
theorem select_entered (hw : s.WellFormed) :
    ((s.entered env t tbl chunk steps).db.selectIntoChunk
      ((s.entered env t tbl chunk steps).db.txns t)
        ((s.nextTid env tbl).slot tbl.oid) tbl.createDataChunk).1 = .visible ∧
      ∀ c ∈ tbl.schema.columns, ∀ v, chunk.get c = some v →
        ((s.entered env t tbl chunk steps).db.selectIntoChunk
          ((s.entered env t tbl chunk steps).db.txns t)
          ((s.nextTid env tbl).slot tbl.oid) tbl.createDataChunk).2.get c = some v := by
  let slot := (s.nextTid env tbl).slot tbl.oid
  have hchain : (s.entered env t tbl chunk steps).db.chain slot =
      [.initializeInsert (s.db.txns t).finish slot] := by
    rw [db_entered]
    simp [Db.chain, Db.insertTuple, Db.record, Db.setTxn, slot, nextTid, TupleId.slot]
  have hrow : (s.entered env t tbl chunk steps).db.rows slot =
      Db7.insertRow tbl.schema chunk (s.db.rows slot) := by
    rw [db_entered, ← hw.schema tbl]
    simp [Db.insertTuple, slot, nextTid, TupleId.slot]
  have hschema : (s.entered env t tbl chunk steps).db.schema slot.tbl = tbl.schema := by
    rw [db_entered]
    exact hw.schema tbl
  have hread : (s.entered env t tbl chunk steps).db.selectIntoChunk
      ((s.entered env t tbl chunk steps).db.txns t) slot tbl.createDataChunk =
      (.visible, readSingleIntoChunk tbl.schema tbl.createDataChunk
        (Db7.insertRow tbl.schema chunk (s.db.rows slot))) := by
    unfold Db.selectIntoChunk
    rw [hchain, hrow, hschema, (@sameTimes_entered env t s chunk tbl steps).2]
    exact if_pos rfl
  rw [hread]
  refine ⟨rfl, fun c hc v hv => ?_⟩
  have hids : c ∈ tbl.createDataChunk.getColumnIds := by
    unfold CatalogTable.createDataChunk DataChunk.getColumnIds
    simpa using hc
  rw [get_readSingleIntoChunk hids, insertRow_apply _ hc, hv]
  rfl

theorem readAttribute_entered (hw : s.WellFormed) :
    ((s.entered env t .attributes chunk steps).readAttribute t (s.nextTid env .attributes)).1 =
      .visible ∧
      ∀ c ∈ CatalogTable.attributes.schema.columns, ∀ v, chunk.get c = some v →
        ((s.entered env t .attributes chunk steps).readAttribute t
          (s.nextTid env .attributes)).2.get c =
          some v :=
  select_entered hw

/-- What is read of the row of a column. -/
structure Describes (s : DatabaseCatalog) (t : TxnId)
    (behind : TupleId → ColOid → Mem) (relOid : Oid)
    (column : SchemaColumn) (tid : TupleId) : Prop where
  row : s.AttributeOf t behind relOid tid
  name : (AttributeRow.decode (behind tid) (s.readAttribute t tid).2).name = column.name
  length : (AttributeRow.decode (behind tid) (s.readAttribute t tid).2).length = column.type.sizeOf
  notNull : (AttributeRow.decode (behind tid) (s.readAttribute t tid).2).notNull = column.isNullable

theorem describes_entered (hw : s.WellFormed) (attrOid relOid : Oid) {column : SchemaColumn}
    (hlen : column.name.length ≤ inlineSizeCap) :
    Describes (s.entered env t .attributes (columnChunk attrOid relOid column) steps) t
      behind relOid column
      (s.nextTid env .attributes) := by
  obtain ⟨hvisible, hget⟩ :=
    @readAttribute_entered env t s (columnChunk attrOid relOid column) steps hw
  have hallocated :
      (s.entered env t .attributes (columnChunk attrOid relOid column) steps).Allocated
      (s.nextTid env .attributes) CatalogTable.attributes.oid := by
    unfold Allocated
    rw [db_entered, Db.count_insertTuple, if_pos ⟨rfl, rfl⟩]
    exact Nat.lt_succ_self _
  have hrelOid := AttributeRow.loadLE_cell (behind (s.nextTid env .attributes))
    (hget attrelid (by decide) (number 4 relOid.toNat) rfl)
  have hlength := AttributeRow.loadLE_cell (behind (s.nextTid env .attributes))
    (hget attlen (by decide) (number 2 column.type.sizeOf) rfl)
  have hnotNull := AttributeRow.loadLE_cell (behind (s.nextTid env .attributes))
    (hget attnotnull (by decide) (number 1 column.isNullable.toNat) rfl)
  have hname := AttributeRow.cell_eq (behind (s.nextTid env .attributes))
    (hget attname (by decide) (entry column.name) rfl)
  refine ⟨⟨hallocated, hvisible, ?_⟩, ?_, ?_, ?_⟩
  · have hlt : relOid.toNat < 256 ^ 4 := relOid.toNat_lt
    exact hrelOid.trans (Nat.mod_eq_of_lt hlt)
  · show Mem.read _ 4 _ = _
    rw [hname, CatalogEnv.read_entry _ hlen]
  · refine hlength.trans ?_
    cases column.type <;> rfl
  · show decide (loadLE _ TypeId.boolean.sizeOf ≠ 0) = _
    rw [show TypeId.boolean.sizeOf = 1 from rfl, hnotNull]
    cases column.isNullable <;> rfl

/-- The row stays as it is. -/
theorem Describes.of_row {relOid : Oid} {column : SchemaColumn}
    (h : s₀.Describes t behind relOid column tid)
    (hrow : SameRow t s₀ s (tid.slot CatalogTable.attributes.oid))
    (halloc : s.Allocated tid CatalogTable.attributes.oid) :
    s.Describes t behind relOid column tid := by
  obtain ⟨⟨-, hvisible, hrelOid⟩, hname, hlength, hnotNull⟩ := h
  have hread := hrow.readAttribute
  rw [← hread] at hvisible hrelOid hname hlength hnotNull
  exact ⟨⟨halloc, hvisible, hrelOid⟩, hname, hlength, hnotNull⟩

/-- A row that gives a nullable column as not nullable, or the other way round, does not
describe it, and no other column has its name. -/
theorem Describes.not_readsBack {relOid : Oid} {column : SchemaColumn} {schema : SchemaColumns}
    (h : s.Describes t behind relOid column tid) (hmem : column ∈ schema)
    (hnames : (schema.map SchemaColumn.name).Nodup) : ¬ s.ReadsBack t behind relOid schema := by
  rintro ⟨tids, -, hrows, hdecode⟩
  obtain ⟨i, hi, htid⟩ := List.mem_iff_getElem.mp ((hrows tid).mp h.row)
  obtain ⟨j, hj, hcolumn⟩ := List.mem_iff_getElem.mp hmem
  have hi' : i < schema.length := hdecode.length_eq ▸ hi
  have hat := (List.forall₂_iff_get.mp hdecode).2 i hi hi'
  simp only [List.get_eq_getElem, htid] at hat
  -- the row has the name of its column, so it is the row of `column`
  have hname : schema[i].name = schema[j].name := by
    rw [hcolumn, ← h.name, hat]
    rfl
  have hij : i = j := by
    have hlen : (schema.map SchemaColumn.name).length = schema.length := List.length_map ..
    have hi'' : i < (schema.map SchemaColumn.name).length := by omega
    have hj' : j < (schema.map SchemaColumn.name).length := by omega
    refine (List.Nodup.getElem_inj_iff hnames).mp (?_ : (schema.map _)[i] = (schema.map _)[j])
    rw [List.getElem_map, List.getElem_map, hname]
  subst hij
  rw [hcolumn] at hat
  have hnotNull := h.notNull
  rw [hat] at hnotNull
  exact absurd hnotNull (by cases hn : column.isNullable <;> simp [AttributeRow.ofColumn, hn])

/-! ## `CreateTable` -/

/-- The parts of a `CreateTable` that succeeds with the lock. -/
theorem createTable_ok {raced : Option Nat} {name : List Byte} {namespaceOid : Oid}
    {schema : SchemaColumns}
    (hs : SoundFor t s) (h : createTable env t raced name namespaceOid schema s = .ok oid s')
    (hlock : s.locks t raced = true) :
    ∃ s₁ : DatabaseCatalog, s₁.db = s.db ∧ s₁.fsm = s.fsm ∧ s₁.indexes = s.indexes ∧
      SoundFor t
        (s₁.entered env t .classes (buildClassChunk oid name namespaceOid .regularTable name)
          tableSteps) ∧
      createColumns env t oid schema
        (s₁.entered env t .classes (buildClassChunk oid name namespaceOid .regularTable name)
          tableSteps) =
        .ok () s' := by
  obtain ⟨lock, rollback, htry, -⟩ := tryLock_eq s t raced
  unfold createTable createClass at h
  rw [run_bind_ok htry, hlock, if_pos rfl] at h
  obtain ⟨_, s₁, hns, h⟩ := run_bind_eq_ok.mp h
  obtain ⟨oid', s₂, htake, h⟩ := run_bind_eq_ok.mp h
  obtain ⟨relOid, s₃, hentry, h⟩ := run_bind_eq_ok.mp h
  obtain ⟨_, s₄, hcolumns, h⟩ := run_bind_eq_ok.mp h
  obtain ⟨rfl, rfl⟩ := EStateM.Result.ok.inj h
  obtain ⟨_, s₅, hinsert, hpure⟩ := run_bind_eq_ok.mp hentry
  obtain ⟨rfl, rfl⟩ := EStateM.Result.ok.inj hpure
  have hsame : s₂.db = s.db ∧ s₂.fsm = s.fsm ∧ s₂.indexes = s.indexes := by
    have hafter :=
      @ends_existsNamespace env (fun r => r.db = s.db ∧ r.fsm = s.fsm ∧ r.indexes = s.indexes)
      namespaceOid { s with writeLock := lock, rollback := rollback } ⟨rfl, rfl, rfl⟩
    rw [hns] at hafter
    obtain ⟨-, rfl⟩ := EStateM.Result.ok.inj htake
    exact hafter
  have hs₂ : SoundFor t s₂ := hs.of_same hsame.1 hsame.2.1 hsame.2.2
  obtain ⟨rfl, hpass⟩ := insertEntry_ok hs₂.1.wellFormed separate_tableSteps hinsert
  exact ⟨s₂, hsame.1, hsame.2.1, hsame.2.2, sound_entered hs₂ stepsOf_tableSteps hpass, hcolumns⟩

/-- The rows of `pg_attribute` are as they were. -/
theorem attributeOf_congr (hrow : SameRow t s s' (tid.slot CatalogTable.attributes.oid))
    (halloc : s'.Allocated tid CatalogTable.attributes.oid ↔
      s.Allocated tid CatalogTable.attributes.oid) :
    s'.AttributeOf t behind oid tid ↔ s.AttributeOf t behind oid tid := by
  have hread := hrow.readAttribute
  constructor
  · rintro ⟨hallocated, hvisible, hrelOid⟩
    rw [hread] at hvisible hrelOid
    exact ⟨halloc.mp hallocated, hvisible, hrelOid⟩
  · rintro ⟨hallocated, hvisible, hrelOid⟩
    rw [← hread] at hvisible hrelOid
    exact ⟨halloc.mpr hallocated, hvisible, hrelOid⟩

theorem readsBack_of_db {schema : SchemaColumns} (h : s'.db = s.db) :
    s'.ReadsBack t behind oid schema ↔ s.ReadsBack t behind oid schema := by
  have hread : ∀ tid, s'.readAttribute t tid = s.readAttribute t tid := fun tid =>
    SameRow.readAttribute (.of_db h)
  have hrows : ∀ tid, s'.AttributeOf t behind oid tid ↔ s.AttributeOf t behind oid tid := by
    intro tid
    refine attributeOf_congr (.of_db h) ?_
    unfold Allocated
    rw [h]
  unfold ReadsBack
  simp only [hread, hrows]

theorem readsBack_nil : s.ReadsBack t behind oid [] ↔ ∀ tid, ¬ s.AttributeOf t behind oid tid := by
  constructor
  · rintro ⟨tids, -, hrows, hdecode⟩ tid hrow
    cases hdecode
    exact absurd ((hrows tid).mp hrow) List.not_mem_nil
  · intro h
    exact ⟨[], List.nodup_nil,
      fun tid => ⟨fun hrow => absurd hrow (h tid), fun hmem => absurd hmem List.not_mem_nil⟩,
      .nil⟩

/-- A row of another table leaves the rows of `pg_attribute`. -/
theorem attributeOf_entered (hw : s.WellFormed) (htbl : tbl.oid ≠ CatalogTable.attributes.oid) :
    (s.entered env t tbl chunk steps).AttributeOf t behind oid tid ↔
      s.AttributeOf t behind oid tid := by
  refine attributeOf_congr (sameRow_entered hw fun heq => htbl (TupleId.slot_inj.mp heq).1.symm) ?_
  unfold Allocated
  rw [db_entered, Db.count_insertTuple, if_neg fun h => htbl h.1.symm]

/-- After the columns have been created the row of the first is there, with the
nullability the wrong way round. -/
theorem describes_createColumns {relOid : Oid} {column : SchemaColumn} {columns : SchemaColumns}
    (hs : SoundFor t s) (hlen : column.name.length ≤ inlineSizeCap)
    (h : createColumns env t relOid (column :: columns) s = .ok () s') :
    ∃ tid, s'.Describes t behind relOid column tid := by
  obtain ⟨_, s₁, hentry, hrest⟩ := run_bind_eq_ok.mp h
  obtain ⟨attrOid, s₂, htake, hentry⟩ := run_bind_eq_ok.mp hentry
  obtain ⟨_, s₃, hinsert, hpure⟩ := run_bind_eq_ok.mp hentry
  obtain ⟨-, rfl⟩ := EStateM.Result.ok.inj hpure
  obtain ⟨-, rfl⟩ := EStateM.Result.ok.inj htake
  let s₂ : DatabaseCatalog := { s with nextAttributeOid := s.nextAttributeOid + 1 }
  have hs₂ : SoundFor t s₂ := hs.of_same rfl rfl rfl
  obtain ⟨rfl, hpass⟩ := insertEntry_ok (s := s₂) hs₂.1.wellFormed separate_columnSteps hinsert
  let tid := s₂.nextTid env .attributes
  have hdescribes :=
    @describes_entered env t s₂ columnSteps behind hs₂.1.wellFormed attrOid relOid column hlen
  have hnames : ∀ column ∈ columns, True := fun _ _ => trivial
  have hkept := (@kept_rowKept env t _ tid).createColumns relOid hnames _
    ⟨sound_entered hs₂ stepsOf_columnSteps hpass, hdescribes.row.allocated, SameRow.refl⟩
  rw [hrest] at hkept
  exact ⟨tid, hdescribes.of_row hkept.row hkept.allocated⟩

/-- With a column the rows do not decode to the schema. -/
theorem createTable_cons {raced : Option Nat} {name : List Byte} {namespaceOid : Oid}
    {column : SchemaColumn}
    {columns : SchemaColumns} (hs : SoundFor t s) (hlock : s.locks t raced = true)
    (hok : createTable env t raced name namespaceOid (column :: columns) s = .ok oid s')
    (hnames : ((column :: columns).map SchemaColumn.name).Nodup)
    (hlen : column.name.length ≤ inlineSizeCap) :
    ¬ s'.ReadsBack t behind oid (column :: columns) := by
  obtain ⟨s₁, -, -, -, hsound, hcolumns⟩ := createTable_ok hs hok hlock
  obtain ⟨tid, hdescribes⟩ :=
    @describes_createColumns env t _ s' behind oid column columns hsound hlen hcolumns
  exact hdescribes.not_readsBack List.mem_cons_self hnames

/-- **The rows that `CreateTable` leaves decode to the schema exactly when it has no
columns** and the class had no rows before; without the lock nothing is written. -/
theorem createTable_reads_back {raced : Option Nat} {name : List Byte} {namespaceOid : Oid}
    {schema : SchemaColumns} (hr : Reachable env s) (hctl : (s.db.txns t).ctl = .active)
    (hok : createTable env t raced name namespaceOid schema s = .ok oid s')
    (hnames : (schema.map SchemaColumn.name).Nodup)
    (hlen : ∀ column ∈ schema, column.name.length ≤ inlineSizeCap)
    (behind : TupleId → ColOid → Mem) :
    s'.ReadsBack t behind oid schema ↔
      if s.locks t raced then schema = [] ∧ ∀ tid, ¬ s.AttributeOf t behind oid tid
      else s.ReadsBack t behind oid schema := by
  have hs : SoundFor t s := ⟨sound_reachable hr, hctl⟩
  cases hlock : s.locks t raced with
  | false =>
      obtain ⟨lock, rollback, htry, -⟩ := tryLock_eq s t raced
      unfold createTable createClass at hok
      rw [run_bind_ok htry, hlock] at hok
      obtain ⟨-, rfl⟩ := EStateM.Result.ok.inj hok
      rw [if_neg (by simp)]
      exact readsBack_of_db rfl
  | true =>
      obtain ⟨s₁, hdb, hfsm, hindexes, hsound, hcolumns⟩ := createTable_ok hs hok hlock
      have hw₁ : s₁.WellFormed := (hs.of_same hdb hfsm hindexes).1.wellFormed
      rw [if_pos rfl]
      cases schema with
      | nil =>
          obtain ⟨-, rfl⟩ := EStateM.Result.ok.inj hcolumns
          have hsame : ∀ tid, s₁.AttributeOf t behind oid tid ↔ s.AttributeOf t behind oid tid := by
            intro tid
            refine attributeOf_congr (.of_db hdb) ?_
            unfold Allocated
            rw [hdb]
          rw [readsBack_nil]
          simp only [true_and]
          refine forall_congr' fun tid => not_congr ?_
          exact (attributeOf_entered hw₁ (by decide)).trans (hsame tid)
      | cons column columns =>
          have hnot :=
            @createTable_cons env t s s' behind oid raced name namespaceOid column columns hs hlock
              hok hnames (hlen column List.mem_cons_self)
          simp [hnot]

/-- Transaction 0 has begun and created a namespace. -/
def withNamespace : DatabaseCatalog :=
  (fresh.call .plain (.begin 0)).call .plain (.createNamespace 0 none [byte 97])

theorem withNamespace_reachable : Reachable .plain withNamespace :=
  .step (.createNamespace 0 none [byte 97]) (.step (.begin 0) (.init fresh_init) rfl) rfl

/-- The call returns an oid. -/
def Succeeds (r : EStateM.Result String DatabaseCatalog Oid) : Bool :=
  match r with
  | .ok _ _ => true
  | .error _ _ => false

theorem ok_of_succeeds {r : EStateM.Result String DatabaseCatalog Oid} (h : Succeeds r = true) :
    ∃ oid s', r = .ok oid s' := by
  cases r with
  | ok oid s' => exact ⟨oid, s', rfl⟩
  | error message s' => exact absurd h (by simp [Succeeds])

/-- A table without columns. -/
theorem createTable_reads_back_empty :
    ∃ oid s', createTable .plain 0 none [byte 98] 1 [] withNamespace = .ok oid s' ∧
      ∀ behind, s'.ReadsBack 0 behind oid [] := by
  obtain ⟨oid, s', hok⟩ :=
    ok_of_succeeds (r := createTable .plain 0 none [byte 98] 1 [] withNamespace)
    (by decide)
  refine ⟨oid, s', hok, fun behind => ?_⟩
  have hiff := createTable_reads_back withNamespace_reachable rfl hok List.nodup_nil
    (fun _ hmem => absurd hmem List.not_mem_nil) behind
  rw [if_pos (by decide)] at hiff
  refine hiff.mpr ⟨rfl, fun tid hrow => ?_⟩
  -- no row of `pg_attribute` has been filled
  exact absurd hrow.allocated (Nat.not_lt_zero _)

/-- A table with one column that is not nullable. -/
theorem createTable_column_misread :
    ¬ ∀ (env : CatalogEnv) (s s' : DatabaseCatalog) (t : TxnId) (raced : Option Nat)
    (name : List Byte)
      (namespaceOid oid : Oid) (schema : SchemaColumns) (behind : TupleId → ColOid → Mem),
        Reachable env s →
      (s.db.txns t).ctl = .active → createTable env t raced name namespaceOid schema
        s = .ok oid s' →
      (schema.map SchemaColumn.name).Nodup →
        (∀ column ∈ schema, column.name.length ≤ inlineSizeCap) →
      s'.ReadsBack t behind oid schema := by
  intro hall
  let schema : SchemaColumns := [⟨[byte 99], .integer, false⟩]
  obtain ⟨oid, s', hok⟩ :=
    ok_of_succeeds (r := createTable .plain 0 none [byte 98] 1 schema withNamespace)
    (by decide)
  have hreads := hall .plain withNamespace s' 0 none [byte 98] 1 oid schema (fun _ _ _ => 0)
    withNamespace_reachable rfl hok (by decide) (by decide)
  exact createTable_cons ⟨sound_reachable withNamespace_reachable, rfl⟩ (by decide) hok (by decide)
    (by decide) hreads

end DatabaseCatalog

end Db7
