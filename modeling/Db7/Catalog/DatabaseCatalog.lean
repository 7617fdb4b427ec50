import Db7.Catalog.Liveness
import Db7.Storage.TableFiles

/-!
# The catalog of a database

`DatabaseCatalog` keeps namespaces, classes, attributes, indexes and constraints as
rows of tables, each with indexes over them. An operation is a sequence of steps
that each may fail; what was written before a failure stays. A `ResultObj` is the
outcome of such a sequence: a value, or an error with its message.

The indexes are sorted multimaps from the encoded columns to tuple ids.

* **entries** (`insertEntry`): one row and its index entries;
* **operations** (`createNamespace`, `createTable`, `createIndex`,
  `createConstraint`, `updateNamespaceName`, ..);
* **runs** (`catalogSystem`): transactions that call them one at a time.
-/

namespace Db7

open Lib Function DataChunkBuilder

/-- `DatabaseCatalog` with the tables and transactions it works on. The counters are
`u32`s: here they count on, and their low 32 bits are handed out. -/
structure DatabaseCatalog where
  db : Db
  fsm : FreeSpaceManagerVarlen
  indexes : IndexOid → Multimap Key TupleId
  nextNamespaceOid : Nat
  nextClassOid : Nat
  nextAttributeOid : Nat
  nextConstraintOid : Nat
  writeLock : Nat
  rollback : TxnId → Bool

/-- A call on the catalog: a result, or the message of a failure. -/
abbrev CatalogM := EStateM String DatabaseCatalog

namespace DatabaseCatalog

/-- The state in which a call leaves the catalog. -/
def after {α : Type} (m : CatalogM α) (s : DatabaseCatalog) : DatabaseCatalog :=
  match m s with
  | .ok _ s' => s'
  | .error _ s' => s'

/-- `res.success`, with what the call has written. -/
def succeeded {α : Type} (m : CatalogM α) : CatalogM Bool := fun s =>
  match m s with
  | .ok _ s' => .ok true s'
  | .error _ s' => .ok false s'

/-! ## The write lock and the counters -/

/-- `Abort`. -/
def abort (s : DatabaseCatalog) (t : TxnId) : DatabaseCatalog :=
  { s with rollback := update s.rollback t true }

/-- Does `TryLock` get the lock? `raced` is what another thread stores between its
load and its swap. -/
def locks (s : DatabaseCatalog) (t : TxnId) (raced : Option Nat) : Bool :=
  s.writeLock = (s.db.txns t).finish ||
    !hasConflictTs s.writeLock (s.db.txns t).finish (s.db.txns t).start && raced.getD
      s.writeLock = s.writeLock

/-- `TryLock`. -/
def tryLock (t : TxnId) (raced : Option Nat) : CatalogM Bool := modifyGet fun s =>
  if s.writeLock = (s.db.txns t).finish then (true, s)
  else if hasConflictTs s.writeLock (s.db.txns t).finish (s.db.txns t).start then (false, s.abort t)
  else if raced.getD s.writeLock = s.writeLock then
    (true, { s with writeLock := (s.db.txns t).finish })
  else (false, { s with writeLock := raced.getD s.writeLock }.abort t)

/-- `next_namespace_oid_++`. -/
def takeNamespaceOid : CatalogM Oid := modifyGet fun s =>
  (.ofNat s.nextNamespaceOid, { s with nextNamespaceOid := s.nextNamespaceOid + 1 })

/-- `next_class_oid_++`. -/
def takeClassOid : CatalogM Oid := modifyGet fun s =>
  (.ofNat s.nextClassOid, { s with nextClassOid := s.nextClassOid + 1 })

/-- `next_attribute_oid_++`. -/
def takeAttributeOid : CatalogM Oid := modifyGet fun s =>
  (.ofNat s.nextAttributeOid, { s with nextAttributeOid := s.nextAttributeOid + 1 })

/-- `next_constraint_oid_++`. -/
def takeConstraintOid : CatalogM Oid := modifyGet fun s =>
  (.ofNat s.nextConstraintOid, { s with nextConstraintOid := s.nextConstraintOid + 1 })

/-! ## Rows and index entries -/

section Entries

variable (env : CatalogEnv) (t : TxnId)

/-- `Get` of an index. -/
def lookup (s : DatabaseCatalog) (index : IndexOid) (chunk : DataChunk) : List TupleId :=
  (s.indexes index).get (env.columns index chunk)

/-- An index with one entry more. -/
def addEntry (s : DatabaseCatalog) (index : IndexOid) (chunk : DataChunk) (tid : TupleId) :
    DatabaseCatalog :=
  { s with
    indexes := update s.indexes index ((s.indexes index).insert (env.columns index chunk) tid) }

/-- `CheckUnique` finds a conflict. -/
def taken (s : DatabaseCatalog) (index : IndexOid) (chunk : DataChunk) : Bool :=
  (s.lookup env index chunk).any fun tid => s.db.hasUniqueConflict t tid index.heapTblId

/-- `Get` of an index and `GetTidExists`. -/
def rowExists (s : DatabaseCatalog) (index : IndexOid) (chunk : DataChunk) : Bool :=
  s.db.getTidExists (s.lookup env index chunk) index.heapTblId

/-- The tuple that `Table::Insert` would fill. -/
def nextTid (s : DatabaseCatalog) (tbl : CatalogTable) : TupleId :=
  let pid := (s.fsm.get (env.chunkSize tbl)).1
  ⟨pid, s.db.count tbl.oid pid⟩

/-- `Table::Insert`. -/
def insertRow (s : DatabaseCatalog) (tbl : CatalogTable) (chunk : DataChunk) : DatabaseCatalog :=
  { s with
    fsm := (s.fsm.get (env.chunkSize tbl)).2
    db := s.db.insertTuple t tbl.oid (s.fsm.get (env.chunkSize tbl)).1 chunk }

/-- The steps after the insert of a row. `Insert` into an index cannot fail. -/
inductive EntryStep
  | insertUnique (index : IndexOid) (message : String)
  | insert (index : IndexOid) (message : String)
  | existsNamespace (oid : Oid)
  | existsTable (oid : Oid)
  deriving DecidableEq

/-- `ExistsNamespace`. -/
def existsNamespace (oid : Oid) : CatalogM Unit := do
  let s ← get
  if s.rowExists env .namespaceNspoid (buildNamespaceOidChunk oid) then return ()
  else throw "Namespace does not exist"

/-- `ExistsTable`. -/
def existsTable (oid : Oid) : CatalogM Unit := do
  let s ← get
  if s.rowExists env .classReloid (buildClassOidChunk oid) then return ()
  else throw "Namespace does not exist"

/-- One step, with the return that follows its failure. -/
def EntryStep.run (chunk : DataChunk) (tid : TupleId) : EntryStep → CatalogM Unit
  | .insertUnique index message => do
      let s ← get
      if s.taken env t index chunk then throw message
      else set (s.addEntry env index chunk tid)
  | .insert index _ => modify fun s => s.addEntry env index chunk tid
  | .existsNamespace oid => DatabaseCatalog.existsNamespace env oid
  | .existsTable oid => DatabaseCatalog.existsTable env oid

/-- The steps one after the other. -/
def runSteps (chunk : DataChunk) (tid : TupleId) : List EntryStep → CatalogM Unit
  | [] => return ()
  | step :: steps => do
      step.run env t chunk tid
      runSteps chunk tid steps

/-- `Table::Insert` and the steps for the new row. -/
def insertEntry (tbl : CatalogTable) (chunk : DataChunk) (steps : List EntryStep) :
    CatalogM Unit := do
  let tid ← modifyGet fun s => (s.nextTid env tbl, s.insertRow env t tbl chunk)
  runSteps env t chunk tid steps

/-- `Get` of an index, `GetTidForModify` and `DeleteUndoRaw`. -/
def deleteEntry (index : IndexOid) (chunk : DataChunk) : CatalogM Bool := do
  let s ← get
  match s.db.getTidForModify t index.heapTblId (s.lookup env index chunk) with
  | .error _ => return false
  | .ok tid =>
      -- no tuple to delete
      if tid = invalidTid then return true
      else modifyGet fun s =>
        ((s.db.deleteUndoRaw t tid index.heapTblId).1,
          { s with db := (s.db.deleteUndoRaw t tid index.heapTblId).2 })

end Entries

/-! ## Namespaces -/

section Operations

variable (env : CatalogEnv) (t : TxnId)

/-- The steps of `CreateNamespaceEntry`. -/
def namespaceSteps : List EntryStep :=
  [.insertUnique .namespaceNspname "Failed to insert to nspname index",
    .insertUnique .namespaceNspoid "Failed to insert to nspoid index"]

/-- `CreateNamespaceEntry`. -/
def createNamespaceEntry (name : List Byte) (oid : Oid) : CatalogM Oid := do
  insertEntry env t .namespaces (buildNamespaceChunk oid name) namespaceSteps
  return oid

/-- `CreateNamespace`. -/
def createNamespace (raced : Option Nat) (name : List Byte) : CatalogM Oid := do
  if ← tryLock t raced then do
    let oid ← takeNamespaceOid
    createNamespaceEntry env t name oid
  else throw "Couldnt aquire a lock"

/-- `DeleteNamespaceEntry`. -/
def deleteNamespaceEntry (oid : Oid) : CatalogM Bool :=
  deleteEntry env t .namespaceNspoid (buildNamespaceChunk oid [])

/-- `DeleteNamespace`. -/
def deleteNamespace (raced : Option Nat) (oid : Oid) : CatalogM Bool := do
  if ← tryLock t raced then deleteNamespaceEntry env t oid
  else return false

/-- `UpdateNamespaceName`. -/
def updateNamespaceName (oid : Oid) (name : List Byte) : CatalogM Bool := do
  if ← deleteNamespaceEntry env t oid then succeeded (createNamespaceEntry env t name oid)
  else return false

/-! ## Tables -/

/-- The steps of `CreateColumnEntry`. -/
def columnSteps : List EntryStep :=
  [.insertUnique .attributeAttrelidAttname "Failed to insert to attrelid_attname index",
    .insertUnique .attributeAttnum "Failed to insert to attnum index"]

/-- The row of a column. -/
def columnChunk (oid relOid : Oid) (column : SchemaColumn) : DataChunk :=
  buildAttributeChunk oid relOid column.name column.type column.type.sizeOf column.isNullable

/-- `CreateColumnEntry`. -/
def createColumnEntry (relOid : Oid) (column : SchemaColumn) : CatalogM Oid := do
  let oid ← takeAttributeOid
  insertEntry env t .attributes (columnChunk oid relOid column) columnSteps
  return oid

/-- The loop over the columns of a schema. -/
def createColumns (relOid : Oid) : SchemaColumns → CatalogM Unit
  | [] => return ()
  | column :: columns => do
      let _ ← createColumnEntry env t relOid column
      createColumns relOid columns

/-- The steps of `CreateTableEntry`. -/
def tableSteps : List EntryStep :=
  [.insertUnique .classRelname "Failed to insert to relname index",
    .insert .classRelnamespace "Failed to insert to relnamespace index",
    .insertUnique .classReloid "Failed to insert to reloid index"]

/-- `CreateTableEntry`; the name is also stored as the options. -/
def createTableEntry (name : List Byte) (oid namespaceOid : Oid) (kind : RelKind) :
    CatalogM Oid := do
  insertEntry env t .classes (buildClassChunk oid name namespaceOid kind name) tableSteps
  return oid

/-- The body that `CreateTable` and `CreateIndexClass` share. What they return when
they do not get the lock is an oid, and so a success. -/
def createClass (kind : RelKind) (raced : Option Nat) (name : List Byte) (namespaceOid : Oid)
    (schema : SchemaColumns) : CatalogM Oid := do
  if ← tryLock t raced then do
    existsNamespace env namespaceOid
    let oid ← takeClassOid
    let relOid ← createTableEntry env t name oid namespaceOid kind
    createColumns env t relOid schema
    return oid
  else return invalidOid

/-- `CreateTable`. -/
def createTable (raced : Option Nat) (name : List Byte) (namespaceOid : Oid)
    (schema : SchemaColumns) :
    CatalogM Oid :=
  createClass env t .regularTable raced name namespaceOid schema

/-- `CreateIndexClass`. -/
def createIndexClass (raced : Option Nat) (name : List Byte) (namespaceOid : Oid)
    (schema : SchemaColumns) :
    CatalogM Oid :=
  createClass env t .index raced name namespaceOid schema

/-- `DeleteTableEntry`. -/
def deleteTableEntry (oid : Oid) : CatalogM Bool :=
  deleteEntry env t .classReloid (buildClassOidChunk oid)

/-- `UpdateTableName`. -/
def updateTableName (oid : Oid) (name : List Byte) (namespaceOid : Oid) : CatalogM Bool := do
  if ← deleteTableEntry env t oid then
    succeeded (createTableEntry env t name oid namespaceOid .regularTable)
  else return false

/-! ## Indexes and constraints -/

/-- The steps of `CreateIndexEntry`. -/
def indexSteps : List EntryStep :=
  [.insertUnique .indexIndoid "Failed to insert to indoid index",
    .insert .indexIndrelid "Failed to insert to indrelid index"]

/-- The row of an index; the kind is `BTREE`. -/
def indexChunk (classOid relOid : Oid) (schema : IndexSchema) : DataChunk :=
  buildIndexChunk classOid relOid schema.isUnique schema.isPrimary schema.isExclusion
    schema.isImmediate
    true true true 0

/-- `CreateIndexEntry`. -/
def createIndexEntry (classOid relOid : Oid) (schema : IndexSchema) : CatalogM Oid := do
  insertEntry env t .indexes (indexChunk classOid relOid schema) indexSteps
  return classOid

/-- `CreateIndex`. It has the lock when it calls `CreateIndexClass`. -/
def createIndex (raced : Option Nat) (name : List Byte) (relOid namespaceOid : Oid)
    (schema : IndexSchema) :
    CatalogM Oid := do
  if ← tryLock t raced then do
    existsTable env relOid
    let classOid ← createIndexClass env t none name namespaceOid schema.columns
    let _ ← createIndexEntry env t classOid relOid schema
    return classOid
  else return invalidOid

/-- The steps of `CreateConstraintEntry`; an object is looked for after the entries
before it. -/
def constraintSteps (props : ConstraintProps) : List EntryStep :=
  [.insertUnique .constraintConoid "Failed to insert to conoid index",
    .insertUnique .constraintConname "Failed to insert to conname index",
    .existsNamespace props.nsOid,
    .insert .constraintConnamespace "Failed to insert to connamespace index",
    .existsTable props.relOid,
    .insert .constraintConrelid "Failed to insert to conrelid index",
    .existsTable props.indOid,
    .insert .constraintConindid "Failed to insert to conindid index",
    .existsTable props.forOid,
    .insert .constraintConfrelid "Failed to insert to res_for index"]

/-- `CreateConstraintEntry`. -/
def createConstraintEntry (oid : Oid) (props : ConstraintProps) : CatalogM Oid := do
  insertEntry env t .constraints (buildConstraintChunk oid props) (constraintSteps props)
  return oid

/-- `CreateConstraint`. -/
def createConstraint (raced : Option Nat) (props : ConstraintProps) : CatalogM Oid := do
  if ← tryLock t raced then do
    let oid ← takeConstraintOid
    createConstraintEntry env t oid props
  else return invalidOid

end Operations

/-! ## Runs -/

/-- The calls of a transaction, and its begin and commit, where the iterator of
`RestampVersions` stops at any of the records. Tables of users are written through
`insert` and `write`. -/
inductive Action
  | begin (t : TxnId)
  | commit (t : TxnId) (stops : List Nat)
  | createNamespace (t : TxnId) (raced : Option Nat) (name : List Byte)
  | deleteNamespace (t : TxnId) (raced : Option Nat) (oid : Oid)
  | updateNamespaceName (t : TxnId) (oid : Oid) (name : List Byte)
  | createTable (t : TxnId) (raced : Option Nat) (name : List Byte) (namespaceOid : Oid)
    (schema : SchemaColumns)
  | createIndexClass (t : TxnId) (raced : Option Nat) (name : List Byte) (namespaceOid : Oid)
      (schema : SchemaColumns)
  | updateTableName (t : TxnId) (oid : Oid) (name : List Byte) (namespaceOid : Oid)
  | createIndex (t : TxnId) (raced : Option Nat) (name : List Byte) (relOid namespaceOid : Oid)
      (schema : IndexSchema)
  | createConstraint (t : TxnId) (raced : Option Nat) (props : ConstraintProps)
  | insert (t : TxnId) (tblId size : Nat) (chunk : DataChunk)
  | write (t : TxnId) (op : WriteOp) (slot : Slot)

namespace Action

/-- The transaction that acts. -/
def txn : Action → TxnId
  | begin t | commit t _ | createNamespace t .. | deleteNamespace t .. | updateNamespaceName t ..
  | createTable t .. | createIndexClass t .. | updateTableName t .. | createIndex t ..
  | createConstraint t .. | insert t .. | write t .. => t

/-- The names that the call gives to rows of the catalog. -/
def names : Action → List (List Byte)
  | createNamespace _ _ name | updateNamespaceName _ _ name | updateTableName _ _ name _ => [name]
  | createTable _ _ name _ schema | createIndexClass _ _ name _ schema =>
      name :: schema.map SchemaColumn.name
  | createIndex _ _ name _ _ schema => name :: schema.columns.map SchemaColumn.name
  | createConstraint _ _ props => [props.name]
  | begin _ | commit .. | deleteNamespace .. | insert .. | write .. => []

end Action

/-- The catalog after a call. -/
def call (env : CatalogEnv) (s : DatabaseCatalog) : Action → DatabaseCatalog
  | .begin t => { s with db := s.db.beginAlone t }
  | .commit t stops => { s with db := s.db.commitThrough t stops }
  | .createNamespace t raced name => after (createNamespace env t raced name) s
  | .deleteNamespace t raced oid => after (deleteNamespace env t raced oid) s
  | .updateNamespaceName t oid name => after (updateNamespaceName env t oid name) s
  | .createTable t raced name namespaceOid schema =>
      after (createTable env t raced name namespaceOid schema) s
  | .createIndexClass t raced name namespaceOid schema =>
      after (createIndexClass env t raced name namespaceOid schema) s
  | .updateTableName t oid name namespaceOid =>
      after (updateTableName env t oid name namespaceOid) s
  | .createIndex t raced name relOid namespaceOid schema =>
      after (createIndex env t raced name relOid namespaceOid schema) s
  | .createConstraint t raced props => after (createConstraint env t raced props) s
  | .insert t tblId size chunk =>
      { s with fsm := (s.fsm.get size).2, db := s.db.insertTuple t tblId (s.fsm.get size).1 chunk }
  | .write t op slot => { s with db := s.db.tableWrite t op slot }

/-- When the call can be made: `Commit` asserts that the transaction has not been
aborted, and users do not write the tables of the catalog. -/
def Enabled (s : DatabaseCatalog) : Action → Prop
  | .begin t => (s.db.txns t).ctl = .idle
  | .commit t _ => (s.db.txns t).ctl = .active ∧ s.rollback t = false
  | .insert t tblId _ _ => (s.db.txns t).ctl = .active ∧ ∀ tbl : CatalogTable, tblId ≠ tbl.oid
  | .write t _ slot => (s.db.txns t).ctl = .active ∧ ∀ tbl : CatalogTable, slot.tbl ≠ tbl.oid
  | a => (s.db.txns a.txn).ctl = .active

/-- The state `Builder` makes, before any transaction. The free space manager is the
one of the process. -/
def Init (s : DatabaseCatalog) : Prop :=
  s.db.Init ∧ (∀ tbl : CatalogTable, s.db.schema tbl.oid = tbl.schema) ∧
    1 ≤ s.fsm.nextPageId ∧ (∀ index, s.indexes index = .empty) ∧
    s.nextNamespaceOid = 1 ∧ s.nextClassOid = 1 ∧ s.nextAttributeOid = 1 ∧ s.nextConstraintOid = 1 ∧
    s.writeLock = 0 ∧ ∀ t, s.rollback t = false

/-- The states of a catalog. -/
inductive Reachable (env : CatalogEnv) : DatabaseCatalog → Prop
  | init {s} : s.Init → Reachable env s
  | step {s} (a : Action) : Reachable env s → s.Enabled a → Reachable env (s.call env a)

end DatabaseCatalog

end Db7
