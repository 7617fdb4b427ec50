import Db7.Catalog.DatabaseCatalog
import Db7.Lib.Program

/-!
# The operations as programs of atomic calls

Between the table and index calls of an operation, and between the load and the swap of
`TryLock`, other transactions may act. Here an operation is the program of its calls;
alone it is the operation of `DatabaseCatalog` (`CatalogOp.exec_program`).

* **calls** (`CatalogCall`): what is done at once, and whether it changes a table or an
  index (`changes`);
* **operations** (`CatalogOp`): their programs.
-/

namespace Db7

open Lib Function DataChunkBuilder

/-- One atomic access of `TryLock`, one `fetch_add` of a counter, one call of a table or
an index, or one look at the heads of tuples. -/
inductive CatalogCall
  | loadLock
  | compareExchange (expected desired : Nat)
  | abort
  | takeNamespaceOid
  | takeClassOid
  | takeAttributeOid
  | takeConstraintOid
  | insertRow (tbl : CatalogTable) (chunk : DataChunk)
  | insertUnique (index : IndexOid) (chunk : DataChunk) (tid : TupleId)
  | insert (index : IndexOid) (chunk : DataChunk) (tid : TupleId)
  | get (index : IndexOid) (chunk : DataChunk)
  | getTidForModify (tblId : Nat) (tids : List TupleId)
  | getTidExists (tblId : Nat) (tids : List TupleId)
  | deleteUndoRaw (tid : TupleId) (tblId : Nat)

namespace CatalogCall

/-- What the call returns. -/
def Result : CatalogCall → Type
  | loadLock => Nat
  | compareExchange .. | insertUnique .. | getTidExists .. | deleteUndoRaw .. => Bool
  | abort | insert .. => Unit
  | takeNamespaceOid | takeClassOid | takeAttributeOid | takeConstraintOid => Oid
  | insertRow .. => TupleId
  | get .. => List TupleId
  | getTidForModify .. => Except String TupleId

/-- The call, made by `t`. -/
def run (env : CatalogEnv) (t : TxnId) :
    (c : CatalogCall) → DatabaseCatalog → c.Result × DatabaseCatalog
  | loadLock, s => (s.writeLock, s)
  | compareExchange expected desired, s =>
      if s.writeLock = expected then (true, { s with writeLock := desired }) else (false, s)
  | abort, s => ((), s.abort t)
  | takeNamespaceOid,
      s => (.ofNat s.nextNamespaceOid, { s with nextNamespaceOid := s.nextNamespaceOid + 1 })
  | takeClassOid, s => (.ofNat s.nextClassOid, { s with nextClassOid := s.nextClassOid + 1 })
  | takeAttributeOid,
      s => (.ofNat s.nextAttributeOid, { s with nextAttributeOid := s.nextAttributeOid + 1 })
  | takeConstraintOid,
      s => (.ofNat s.nextConstraintOid, { s with nextConstraintOid := s.nextConstraintOid + 1 })
  | insertRow tbl chunk, s => (s.nextTid env tbl, s.insertRow env t tbl chunk)
  | insertUnique index chunk tid, s =>
      if s.taken env t index chunk then (false, s) else (true, s.addEntry env index chunk tid)
  | insert index chunk tid, s => ((), s.addEntry env index chunk tid)
  | get index chunk, s => (s.lookup env index chunk, s)
  | getTidForModify tblId tids, s => (s.db.getTidForModify t tblId tids, s)
  | getTidExists tblId tids, s => (s.db.getTidExists tids tblId, s)
  | deleteUndoRaw tid tblId, s =>
      ((s.db.deleteUndoRaw t tid tblId).1, { s with db := (s.db.deleteUndoRaw t tid tblId).2 })

theorem run_compareExchange (env : CatalogEnv) (t : TxnId) (expected desired : Nat)
    (s : DatabaseCatalog) :
    ((compareExchange expected desired).run env t s).2 =
      if s.writeLock = expected then { s with writeLock := desired } else s := by
  show (if s.writeLock = expected then (true, _) else (false, s) : Bool × DatabaseCatalog).2 = _
  split <;> rfl

theorem run_insertUnique (env : CatalogEnv) (t : TxnId) (index : IndexOid) (chunk : DataChunk)
    (tid : TupleId) (s : DatabaseCatalog) : ((insertUnique index chunk tid).run env t s).2 =
      if s.taken env t index chunk then s else s.addEntry env index chunk tid := by
  show (if s.taken env t index chunk then (false, s) else (true, _) : Bool × DatabaseCatalog).2 = _
  split <;> rfl

/-- The call changes a table or an index. -/
def changes (env : CatalogEnv) (t : TxnId) : CatalogCall → DatabaseCatalog → Bool
  | insertRow .., _ | insert .., _ => true
  | insertUnique index chunk _, s => !s.taken env t index chunk
  | deleteUndoRaw tid tblId, s => (s.db.deleteUndoRaw t tid tblId).1
  | _, _ => false

end CatalogCall

/-- The program of an operation. -/
abbrev CatalogProg := Prog CatalogCall CatalogCall.Result String

namespace CatalogProg

open Prog

/-! ## Single calls -/

/-- `write_lock_.load()`. -/
def loadLock : CatalogProg Nat := perform CatalogCall.loadLock

/-- `write_lock_.compare_exchange_strong`. -/
def compareExchange (expected desired : Nat) : CatalogProg Bool :=
  perform (CatalogCall.compareExchange expected desired)

/-- `Abort`. -/
def abort : CatalogProg Unit := perform CatalogCall.abort

def takeNamespaceOid : CatalogProg Oid := perform CatalogCall.takeNamespaceOid

def takeClassOid : CatalogProg Oid := perform CatalogCall.takeClassOid

def takeAttributeOid : CatalogProg Oid := perform CatalogCall.takeAttributeOid

def takeConstraintOid : CatalogProg Oid := perform CatalogCall.takeConstraintOid

/-- `Table::Insert`. -/
def insertRow (tbl : CatalogTable) (chunk : DataChunk) : CatalogProg TupleId :=
  perform (CatalogCall.insertRow tbl chunk)

/-- `InsertUnique`. -/
def insertUnique (index : IndexOid) (chunk : DataChunk) (tid : TupleId) : CatalogProg Bool :=
  perform (CatalogCall.insertUnique index chunk tid)

/-- `Insert` of an index. -/
def insert (index : IndexOid) (chunk : DataChunk) (tid : TupleId) : CatalogProg Unit :=
  perform (CatalogCall.insert index chunk tid)

/-- `Get`. -/
def lookup (index : IndexOid) (chunk : DataChunk) : CatalogProg (List TupleId) :=
  perform (CatalogCall.get index chunk)

/-- `GetTidForModify`. -/
def getTidForModify (tblId : Nat) (tids : List TupleId) : CatalogProg (Except String TupleId) :=
  perform (CatalogCall.getTidForModify tblId tids)

/-- `GetTidExists`. -/
def getTidExists (tblId : Nat) (tids : List TupleId) : CatalogProg Bool :=
  perform (CatalogCall.getTidExists tblId tids)

/-- `Table::DeleteUndoRaw`. -/
def deleteUndoRaw (tid : TupleId) (tblId : Nat) : CatalogProg Bool :=
  perform (CatalogCall.deleteUndoRaw tid tblId)

/-! ## Operations -/

section Programs

variable (start finish : Nat)

/-- `TryLock` of a transaction with these times. -/
def tryLock : CatalogProg Bool := do
  let current ← loadLock
  if current = finish then return true
  else if hasConflictTs current finish start then do
    abort
    return false
  else do
    if ← compareExchange current finish then return true
    else do
      abort
      return false

/-- `ExistsNamespace`. -/
def existsNamespace (oid : Oid) : CatalogProg Unit := do
  let tids ← lookup .namespaceNspoid (buildNamespaceOidChunk oid)
  if ← getTidExists IndexOid.namespaceNspoid.heapTblId tids then return ()
    else .fail "Namespace does not exist"

/-- `ExistsTable`. -/
def existsTable (oid : Oid) : CatalogProg Unit := do
  let tids ← lookup .classReloid (buildClassOidChunk oid)
  if ← getTidExists IndexOid.classReloid.heapTblId tids then return ()
    else .fail "Namespace does not exist"

/-- One step of an entry. -/
def step (chunk : DataChunk) (tid : TupleId) : DatabaseCatalog.EntryStep → CatalogProg Unit
  | .insertUnique index message => do
      if ← insertUnique index chunk tid then return () else .fail message
  | .insert index _ => insert index chunk tid
  | .existsNamespace oid => existsNamespace oid
  | .existsTable oid => existsTable oid

/-- The steps one after the other. -/
def runSteps (chunk : DataChunk) (tid : TupleId) : List DatabaseCatalog.EntryStep → CatalogProg Unit
  | [] => return ()
  | s :: steps => do
      step chunk tid s
      runSteps chunk tid steps

/-- `Table::Insert` and the steps for the new row. -/
def insertEntry (tbl : CatalogTable) (chunk : DataChunk) (steps : List DatabaseCatalog.EntryStep) :
    CatalogProg Unit := do
  let tid ← insertRow tbl chunk
  runSteps chunk tid steps

/-- `Get` of an index, `GetTidForModify` and `DeleteUndoRaw`. -/
def deleteEntry (index : IndexOid) (chunk : DataChunk) : CatalogProg Bool := do
  let tids ← lookup index chunk
  match ← getTidForModify index.heapTblId tids with
  | .error _ => return false
  | .ok tid =>
      if tid = invalidTid then return true
      else deleteUndoRaw tid index.heapTblId

/-- `CreateNamespaceEntry`. -/
def createNamespaceEntry (name : List Byte) (oid : Oid) : CatalogProg Oid := do
  insertEntry .namespaces (buildNamespaceChunk oid name) DatabaseCatalog.namespaceSteps
  return oid

/-- `CreateNamespace`. -/
def createNamespace (name : List Byte) : CatalogProg Oid := do
  if ← tryLock start finish then do
    let oid ← takeNamespaceOid
    createNamespaceEntry name oid
  else .fail "Couldnt aquire a lock"

/-- `DeleteNamespace`. -/
def deleteNamespace (oid : Oid) : CatalogProg Bool := do
  if ← tryLock start finish then deleteEntry .namespaceNspoid (buildNamespaceChunk oid [])
  else return false

/-- `res.success`. -/
def succeeded {α : Type} : CatalogProg α → CatalogProg Bool
  | .done _ => return true
  | .fail _ => return false
  | .call c k => .call c fun r => succeeded (k r)

/-- `UpdateNamespaceName`. -/
def updateNamespaceName (oid : Oid) (name : List Byte) : CatalogProg Bool := do
  if ← deleteEntry .namespaceNspoid (buildNamespaceChunk oid [])
    then succeeded (createNamespaceEntry name oid)
  else return false

/-- `CreateColumnEntry`. -/
def createColumnEntry (relOid : Oid) (column : SchemaColumn) : CatalogProg Oid := do
  let oid ← takeAttributeOid
  insertEntry .attributes (DatabaseCatalog.columnChunk oid relOid column)
    DatabaseCatalog.columnSteps
  return oid

/-- The loop over the columns of a schema. -/
def createColumns (relOid : Oid) : SchemaColumns → CatalogProg Unit
  | [] => return ()
  | column :: columns => do
      let _ ← createColumnEntry relOid column
      createColumns relOid columns

/-- `CreateTableEntry`. -/
def createTableEntry (name : List Byte) (oid namespaceOid : Oid) (kind : RelKind) :
    CatalogProg Oid := do
  insertEntry .classes (buildClassChunk oid name namespaceOid kind name) DatabaseCatalog.tableSteps
  return oid

/-- The body that `CreateTable` and `CreateIndexClass` share. -/
def createClass (kind : RelKind) (name : List Byte) (namespaceOid : Oid) (schema : SchemaColumns) :
    CatalogProg Oid := do
  if ← tryLock start finish then do
    existsNamespace namespaceOid
    let oid ← takeClassOid
    let relOid ← createTableEntry name oid namespaceOid kind
    createColumns relOid schema
    return oid
  else return invalidOid

/-- `UpdateTableName`. -/
def updateTableName (oid : Oid) (name : List Byte) (namespaceOid : Oid) : CatalogProg Bool := do
  if ← deleteEntry .classReloid (buildClassOidChunk oid) then
    succeeded (createTableEntry name oid namespaceOid .regularTable)
  else return false

/-- `CreateIndexEntry`. -/
def createIndexEntry (classOid relOid : Oid) (schema : IndexSchema) : CatalogProg Oid := do
  insertEntry .indexes (DatabaseCatalog.indexChunk classOid relOid schema)
    DatabaseCatalog.indexSteps
  return classOid

/-- `CreateIndex`. -/
def createIndex (name : List Byte) (relOid namespaceOid : Oid) (schema : IndexSchema) :
    CatalogProg Oid := do
  if ← tryLock start finish then do
    existsTable relOid
    let classOid ← createClass start finish .index name namespaceOid schema.columns
    let _ ← createIndexEntry classOid relOid schema
    return classOid
  else return invalidOid

/-- `CreateConstraint`. -/
def createConstraint (props : ConstraintProps) : CatalogProg Oid := do
  if ← tryLock start finish then do
    let oid ← takeConstraintOid
    insertEntry .constraints (buildConstraintChunk oid props)
      (DatabaseCatalog.constraintSteps props)
    return oid
  else return invalidOid

end Programs

/-! ## Alone -/

section Alone

variable {env : CatalogEnv} {t : TxnId} {start finish : Nat} {α β : Type}

/-- The times of `t`. -/
def HasTimes (t : TxnId) (start finish : Nat) (s : DatabaseCatalog) : Prop :=
  (s.db.txns t).start = start ∧ (s.db.txns t).finish = finish

/-- No call of a transaction changes the times of one. -/
theorem txns_run (c : CatalogCall) (s : DatabaseCatalog) (u : TxnId) :
    ((c.run env t s).2.db.txns u).start = (s.db.txns u).start ∧
      ((c.run env t s).2.db.txns u).finish = (s.db.txns u).finish ∧
      ((c.run env t s).2.db.txns u).ctl = (s.db.txns u).ctl := by
  cases c with
  | compareExchange expected desired =>
      rw [CatalogCall.run_compareExchange]
      split <;> exact ⟨rfl, rfl, rfl⟩
  | insertUnique index chunk tid =>
      rw [CatalogCall.run_insertUnique]
      split <;> exact ⟨rfl, rfl, rfl⟩
  | insertRow tbl chunk => exact Db.txns_insertTuple u
  | deleteUndoRaw tid tblId =>
      exact (Db.written_tableWrite s.db t .deleteRaw (tid.slot tblId)).txns u
  | loadLock | abort | takeNamespaceOid | takeClassOid | takeAttributeOid | takeConstraintOid
  | insert | get | getTidForModify | getTidExists => exact ⟨rfl, rfl, rfl⟩

theorem hasTimes_run (c : CatalogCall) (s : DatabaseCatalog) (h : HasTimes t start finish s) :
    HasTimes t start finish (c.run env t s).2 :=
  ⟨(txns_run c s t).1.trans h.1, (txns_run c s t).2.1.trans h.2⟩

/-- With these times the program is, alone, the operation. -/
abbrev IsAlone (env : CatalogEnv) (t : TxnId) (start finish : Nat) (p : CatalogProg α)
    (m : CatalogM α) : Prop :=
  Prog.Alone (CatalogCall.run env t) (HasTimes t start finish) p m

theorem IsAlone.bind {p : CatalogProg α} {m : CatalogM α} {f : α → CatalogProg β}
    {g : α → CatalogM β}
    (hp : IsAlone env t start finish p m) (hf : ∀ a, IsAlone env t start finish (f a) (g a)) :
    IsAlone env t start finish (p >>= f) (m >>= g) :=
  Prog.Alone.bind hasTimes_run hp hf

theorem alone_tryLock : IsAlone env t start finish (tryLock start finish)
      (DatabaseCatalog.tryLock t none) := by
  rintro s ⟨rfl, rfl⟩
  let f (s : DatabaseCatalog) : Bool × DatabaseCatalog :=
    if s.writeLock = (s.db.txns t).finish then (true, s)
    else if hasConflictTs s.writeLock (s.db.txns t).finish (s.db.txns t).start
      then (false, s.abort t)
    else if s.writeLock = s.writeLock then (true, { s with writeLock := (s.db.txns t).finish })
    else (false, s.abort t)
  have hrun : DatabaseCatalog.tryLock t none s = .ok (f s).1 (f s).2 := rfl
  rw [hrun]
  show Prog.exec _ (if s.writeLock = (s.db.txns t).finish then return true
    else if hasConflictTs s.writeLock (s.db.txns t).finish (s.db.txns t).start
      then do abort; return false
    else do if ← compareExchange s.writeLock (s.db.txns t).finish then return true
            else do abort; return false : CatalogProg Bool) s = _
  by_cases hown : s.writeLock = (s.db.txns t).finish
  · simp only [f, if_pos hown]
    rfl
  · by_cases hconflict : hasConflictTs s.writeLock (s.db.txns t).finish (s.db.txns t).start = true
    · simp only [f, if_neg hown, if_pos hconflict]
      rfl
    · simp only [f, if_neg hown, if_neg hconflict, if_true]
      have hswap :
          (compareExchange s.writeLock (s.db.txns t).finish).exec (CatalogCall.run env t) s =
          .ok true { s with writeLock := (s.db.txns t).finish } := by
        let r : Bool × DatabaseCatalog :=
          if s.writeLock = s.writeLock then (true, { s with writeLock := (s.db.txns t).finish })
            else (false, s)
        show EStateM.Result.ok r.1 r.2 = _
        simp only [r, if_true]
      rw [Prog.exec_bind, run_bind_ok hswap]
      rfl

theorem alone_existsNamespace (oid : Oid) :
    IsAlone env t start finish (existsNamespace oid) (DatabaseCatalog.existsNamespace env oid) := by
  intro s _
  show Prog.exec _ (if s.rowExists env .namespaceNspoid (buildNamespaceOidChunk oid) then return ()
    else .fail "Namespace does not exist" : CatalogProg Unit) s =
    (if s.rowExists env .namespaceNspoid (buildNamespaceOidChunk oid) then pure ()
      else throw "Namespace does not exist" : CatalogM Unit) s
  split <;> rfl

theorem alone_existsTable (oid : Oid) :
    IsAlone env t start finish (existsTable oid) (DatabaseCatalog.existsTable env oid) := by
  intro s _
  show Prog.exec _ (if s.rowExists env .classReloid (buildClassOidChunk oid) then return ()
    else .fail "Namespace does not exist" : CatalogProg Unit) s =
    (if s.rowExists env .classReloid (buildClassOidChunk oid) then pure ()
      else throw "Namespace does not exist" : CatalogM Unit) s
  split <;> rfl

theorem alone_step (chunk : DataChunk) (tid : TupleId) (e : DatabaseCatalog.EntryStep) :
    IsAlone env t start finish (step chunk tid e) (e.run env t chunk tid) := by
  cases e with
  | insertUnique index message =>
      intro s _
      show Prog.exec _
        (if (if s.taken env t index chunk then (false, s) else (true, _) : Bool × DatabaseCatalog).1
          then return () else .fail message : CatalogProg Unit)
          (if s.taken env t index chunk then (false, s) else (true, _) : Bool × DatabaseCatalog).2 =
        (if s.taken env t index chunk then throw message else set _ : CatalogM Unit) s
      split <;> rfl
  | insert index message => exact fun s _ => rfl
  | existsNamespace oid => exact alone_existsNamespace oid
  | existsTable oid => exact alone_existsTable oid

theorem alone_runSteps (chunk : DataChunk) (tid : TupleId)
    (steps : List DatabaseCatalog.EntryStep) :
    IsAlone env t start finish (runSteps chunk tid steps)
    (DatabaseCatalog.runSteps env t chunk tid steps) := by
  induction steps with
  | nil => exact fun s _ => rfl
  | cons e steps ih => exact (alone_step chunk tid e).bind fun _ => ih

theorem alone_insertEntry (tbl : CatalogTable) (chunk : DataChunk)
    (steps : List DatabaseCatalog.EntryStep) :
    IsAlone env t start finish (insertEntry tbl chunk steps)
    (DatabaseCatalog.insertEntry env t tbl chunk steps) :=
  IsAlone.bind (fun _ _ => rfl) fun tid => alone_runSteps chunk tid steps

theorem alone_deleteEntry (index : IndexOid) (chunk : DataChunk) :
    IsAlone env t start finish (deleteEntry index chunk)
    (DatabaseCatalog.deleteEntry env t index chunk) := by
  intro s _
  show Prog.exec _ (match s.db.getTidForModify t index.heapTblId (s.lookup env index chunk) with
      | .error _ => return false
      | .ok tid => if tid = invalidTid then return true else deleteUndoRaw tid index.heapTblId :
          CatalogProg Bool) s =
    (match s.db.getTidForModify t index.heapTblId (s.lookup env index chunk) with
      | .error _ => pure false
      | .ok tid => if tid = invalidTid then pure true else modifyGet _ : CatalogM Bool) s
  cases s.db.getTidForModify t index.heapTblId (s.lookup env index chunk) with
  | error message => rfl
  | ok tid =>
      by_cases hinvalid : tid = invalidTid
      · simp only [if_pos hinvalid]
        rfl
      · simp only [if_neg hinvalid]
        rfl

theorem alone_succeeded {p : CatalogProg α} {m : CatalogM α} (h : IsAlone env t start finish p m) :
    IsAlone env t start finish (succeeded p) (DatabaseCatalog.succeeded m) := by
  have hexec : ∀ (p : CatalogProg α) s, (succeeded p).exec (CatalogCall.run env t) s =
      DatabaseCatalog.succeeded (p.exec (CatalogCall.run env t)) s := by
    intro p
    induction p with
    | done a => exact fun _ => rfl
    | fail e => exact fun _ => rfl
    | call c k ih => exact fun s => ih (c.run env t s).1 (c.run env t s).2
  intro s hs
  rw [hexec]
  unfold DatabaseCatalog.succeeded
  rw [h s hs]

theorem alone_createNamespaceEntry (name : List Byte) (oid : Oid) :
    IsAlone env t start finish (createNamespaceEntry name oid)
    (DatabaseCatalog.createNamespaceEntry env t name oid) :=
  (alone_insertEntry _ _ _).bind fun _ _ _ => rfl

theorem alone_createNamespace (name : List Byte) :
    IsAlone env t start finish (createNamespace start finish name)
    (DatabaseCatalog.createNamespace env t none name) :=
  alone_tryLock.bind fun _ => Prog.Alone.ite
    (IsAlone.bind (fun _ _ => rfl) fun oid => alone_createNamespaceEntry name oid) fun _ _ => rfl

theorem alone_deleteNamespace (oid : Oid) :
    IsAlone env t start finish (deleteNamespace start finish oid)
    (DatabaseCatalog.deleteNamespace env t none oid) :=
  alone_tryLock.bind fun _ => Prog.Alone.ite (alone_deleteEntry _ _) fun _ _ => rfl

theorem alone_updateNamespaceName (oid : Oid) (name : List Byte) :
    IsAlone env t start finish (updateNamespaceName oid name)
      (DatabaseCatalog.updateNamespaceName env t oid name) :=
  IsAlone.bind (alone_deleteEntry _ _) fun _ =>
    Prog.Alone.ite (alone_succeeded (alone_createNamespaceEntry name oid)) fun _ _ => rfl

theorem alone_createColumnEntry (relOid : Oid) (column : SchemaColumn) :
    IsAlone env t start finish (createColumnEntry relOid column)
      (DatabaseCatalog.createColumnEntry env t relOid column) :=
  IsAlone.bind (fun _ _ => rfl) fun _ => (alone_insertEntry _ _ _).bind fun _ _ _ => rfl

theorem alone_createColumns (relOid : Oid) (columns : SchemaColumns) :
    IsAlone env t start finish (createColumns relOid columns)
    (DatabaseCatalog.createColumns env t relOid columns) := by
  induction columns with
  | nil => exact fun _ _ => rfl
  | cons column columns ih => exact (alone_createColumnEntry relOid column).bind fun _ => ih

theorem alone_createTableEntry (name : List Byte) (oid namespaceOid : Oid) (kind : RelKind) :
    IsAlone env t start finish (createTableEntry name oid namespaceOid kind)
      (DatabaseCatalog.createTableEntry env t name oid namespaceOid kind) :=
  (alone_insertEntry _ _ _).bind fun _ _ _ => rfl

theorem alone_createClass (kind : RelKind) (name : List Byte) (namespaceOid : Oid)
    (schema : SchemaColumns) :
    IsAlone env t start finish (createClass start finish kind name namespaceOid schema)
      (DatabaseCatalog.createClass env t kind none name namespaceOid schema) := by
  refine alone_tryLock.bind fun locked => Prog.Alone.ite ?_ fun _ _ => rfl
  refine (alone_existsNamespace namespaceOid).bind fun _ => IsAlone.bind (fun _ _ => rfl) fun oid =>
    ?_
  refine (alone_createTableEntry name oid namespaceOid kind).bind fun relOid => ?_
  exact (alone_createColumns relOid schema).bind fun _ _ _ => rfl

theorem alone_updateTableName (oid : Oid) (name : List Byte) (namespaceOid : Oid) :
    IsAlone env t start finish (updateTableName oid name namespaceOid)
      (DatabaseCatalog.updateTableName env t oid name namespaceOid) :=
  IsAlone.bind (alone_deleteEntry _ _) fun _ =>
    Prog.Alone.ite (alone_succeeded (alone_createTableEntry name oid namespaceOid .regularTable))
      fun _ _ => rfl

theorem alone_createIndex (name : List Byte) (relOid namespaceOid : Oid) (schema : IndexSchema) :
    IsAlone env t start finish (createIndex start finish name relOid namespaceOid schema)
      (DatabaseCatalog.createIndex env t none name relOid namespaceOid schema) := by
  refine alone_tryLock.bind fun locked => Prog.Alone.ite ?_ fun _ _ => rfl
  refine (alone_existsTable relOid).bind fun _ => ?_
  refine (alone_createClass .index name namespaceOid schema.columns).bind fun classOid => ?_
  refine IsAlone.bind ?_ fun _ _ _ => rfl
  exact (alone_insertEntry _ _ _).bind fun _ _ _ => rfl

theorem alone_createConstraint (props : ConstraintProps) :
    IsAlone env t start finish (createConstraint start finish props)
      (DatabaseCatalog.createConstraint env t none props) := by
  refine alone_tryLock.bind fun locked => Prog.Alone.ite ?_ fun _ _ => rfl
  exact IsAlone.bind (fun _ _ => rfl) fun oid => (alone_insertEntry _ _ _).bind fun _ _ _ => rfl

end Alone

end CatalogProg

/-! ## The calls of a transaction -/

/-- The public operations that change the tables of the catalog. -/
inductive CatalogOp
  | createNamespace (name : List Byte)
  | deleteNamespace (oid : Oid)
  | updateNamespaceName (oid : Oid) (name : List Byte)
  | createTable (name : List Byte) (namespaceOid : Oid) (schema : SchemaColumns)
  | createIndexClass (name : List Byte) (namespaceOid : Oid) (schema : SchemaColumns)
  | createIndex (name : List Byte) (relOid namespaceOid : Oid) (schema : IndexSchema)
  | updateTableName (oid : Oid) (name : List Byte) (namespaceOid : Oid)
  | createConstraint (props : ConstraintProps)

namespace CatalogOp

/-- What is done with the result of an operation is left open. -/
def ignore {α : Type} (p : CatalogProg α) : CatalogProg Unit := do
  let _ ← p
  return ()

/-- The program of an operation, for a transaction with these times. -/
def program (start finish : Nat) : CatalogOp → CatalogProg Unit
  | createNamespace name => ignore (CatalogProg.createNamespace start finish name)
  | deleteNamespace oid => ignore (CatalogProg.deleteNamespace start finish oid)
  | updateNamespaceName oid name => ignore (CatalogProg.updateNamespaceName oid name)
  | createTable name namespaceOid schema =>
      ignore (CatalogProg.createClass start finish .regularTable name namespaceOid schema)
  | createIndexClass name namespaceOid schema =>
      ignore (CatalogProg.createClass start finish .index name namespaceOid schema)
  | createIndex name relOid namespaceOid schema =>
      ignore (CatalogProg.createIndex start finish name relOid namespaceOid schema)
  | updateTableName oid name namespaceOid =>
      ignore (CatalogProg.updateTableName oid name namespaceOid)
  | createConstraint props => ignore (CatalogProg.createConstraint start finish props)

/-- The action with which the operation is made at once. -/
def action (t : TxnId) : CatalogOp → DatabaseCatalog.Action
  | createNamespace name => .createNamespace t none name
  | deleteNamespace oid => .deleteNamespace t none oid
  | updateNamespaceName oid name => .updateNamespaceName t oid name
  | createTable name namespaceOid schema => .createTable t none name namespaceOid schema
  | createIndexClass name namespaceOid schema => .createIndexClass t none name namespaceOid schema
  | createIndex name relOid namespaceOid schema => .createIndex t none name relOid
      namespaceOid schema
  | updateTableName oid name namespaceOid => .updateTableName t oid name namespaceOid
  | createConstraint props => .createConstraint t none props

/-- Made at once, an operation is the one of `DatabaseCatalog`. -/
theorem exec_program (env : CatalogEnv) (t : TxnId) (op : CatalogOp) (s : DatabaseCatalog) :
    DatabaseCatalog.after
      ((op.program (s.db.txns t).start (s.db.txns t).finish).exec (CatalogCall.run env t)) s =
      s.call env (op.action t) := by
  have hafter : ∀ {α : Type} {p : CatalogProg α} {m : CatalogM α},
      CatalogProg.IsAlone env t (s.db.txns t).start (s.db.txns t).finish p m →
      DatabaseCatalog.after ((ignore p).exec (CatalogCall.run env t)) s =
        DatabaseCatalog.after m s := by
    intro α p m halone
    have hrun := halone s ⟨rfl, rfl⟩
    unfold DatabaseCatalog.after ignore
    rw [Prog.exec_bind]
    cases hm : m s with
    | ok a s' => rw [run_bind_ok (hrun.trans hm)]; rfl
    | error e s' => rw [run_bind_error (hrun.trans hm)]
  cases op with
  | createNamespace name => exact hafter (CatalogProg.alone_createNamespace name)
  | deleteNamespace oid => exact hafter (CatalogProg.alone_deleteNamespace oid)
  | updateNamespaceName oid name => exact hafter (CatalogProg.alone_updateNamespaceName oid name)
  | createTable name namespaceOid schema =>
      exact hafter (CatalogProg.alone_createClass _ name namespaceOid schema)
  | createIndexClass name namespaceOid schema =>
      exact hafter (CatalogProg.alone_createClass _ name namespaceOid schema)
  | createIndex name relOid namespaceOid schema =>
      exact hafter (CatalogProg.alone_createIndex name relOid namespaceOid schema)
  | updateTableName oid name namespaceOid =>
      exact hafter (CatalogProg.alone_updateTableName oid name namespaceOid)
  | createConstraint props => exact hafter (CatalogProg.alone_createConstraint props)

end CatalogOp

end Db7
