import Db7.Catalog.Entries

/-!
# What holds of every catalog

Every call of a transaction keeps the catalog well-formed (`sound_reachable`), also
when it fails half way. The operations are sequences of a few parts: entries, deletes,
the lock and the counters. What the parts keep (`Kept`), the operations keep.
-/

namespace Db7

open Lib Function CatalogColumnOid DataChunkBuilder

namespace DatabaseCatalog

variable {env : CatalogEnv} {t : TxnId} {s s' : DatabaseCatalog} {chunk : DataChunk}
  {tbl : CatalogTable} {steps : List EntryStep}

/-- A catalog between two calls. -/
structure Sound (s : DatabaseCatalog) : Prop where
  wellFormed : s.WellFormed
  /-- Only the indexes of the tables that the catalog writes have entries. -/
  ofTables : ∀ index key tid, tid ∈ (s.indexes index).get key → ∃ tbl :
    CatalogTable, index.heapTblId = tbl.oid
  idle : s.db.IdleEmpty

/-- The lock, the counters and the aborted transactions do not matter. -/
theorem Sound.of_same (h : s.Sound) (hdb : s'.db = s.db) (hfsm : s'.fsm = s.fsm)
    (hindexes : s'.indexes = s.indexes) : s'.Sound := by
  obtain ⟨⟨hchains, hschema, hpage, hallocated, hversioned, hunique⟩, htables, hidle⟩ := h
  refine ⟨⟨?_, ?_, ?_, ?_, ?_, ?_⟩, ?_, ?_⟩
  · rwa [hdb]
  · rwa [hdb]
  · rwa [hfsm]
  · unfold Allocated
    rwa [hdb, hindexes]
  · rwa [hdb, hindexes]
  · rwa [hdb, hindexes]
  · rwa [hindexes]
  · rwa [hdb]

/-- A catalog in which `t` may act. -/
def SoundFor (t : TxnId) (s : DatabaseCatalog) : Prop := s.Sound ∧ (s.db.txns t).ctl = .active

theorem SoundFor.of_same (h : SoundFor t s) (hdb : s'.db = s.db) (hfsm : s'.fsm = s.fsm)
    (hindexes : s'.indexes = s.indexes) : SoundFor t s' :=
  ⟨h.1.of_same hdb hfsm hindexes, by rw [hdb]; exact h.2⟩

/-! ## The parts of the operations -/

/-- `TryLock` answers `locks`, and leaves the tables and indexes alone. -/
theorem tryLock_eq (s : DatabaseCatalog) (t : TxnId) (raced : Option Nat) :
    ∃ lock rollback, tryLock t raced s =
        .ok (s.locks t raced) { s with writeLock := lock, rollback := rollback } ∧
      (s.locks t raced = true → lock = (s.db.txns t).finish) := by
  let f (s : DatabaseCatalog) : Bool × DatabaseCatalog :=
    if s.writeLock = (s.db.txns t).finish then (true, s)
    else if hasConflictTs s.writeLock (s.db.txns t).finish (s.db.txns t).start
      then (false, s.abort t)
    else if raced.getD s.writeLock = s.writeLock
      then (true, { s with writeLock := (s.db.txns t).finish })
    else (false, { s with writeLock := raced.getD s.writeLock }.abort t)
  have hrun : tryLock t raced s = .ok (f s).1 (f s).2 := rfl
  rw [hrun]
  unfold locks
  by_cases hown : s.writeLock = (s.db.txns t).finish
  · refine ⟨s.writeLock, s.rollback, ?_, fun _ => hown⟩
    simp only [f, if_pos hown, decide_eq_true hown, Bool.true_or]
  · by_cases hconflict : hasConflictTs s.writeLock (s.db.txns t).finish (s.db.txns t).start = true
    · refine ⟨s.writeLock, (s.abort t).rollback, ?_, ?_⟩
      · simp [f, hown, hconflict, abort]
      · simp [hown, hconflict]
    · by_cases hraced : raced.getD s.writeLock = s.writeLock
      · refine ⟨(s.db.txns t).finish, s.rollback, ?_, fun _ => rfl⟩
        simp [f, hown, hconflict, hraced]
      · refine ⟨raced.getD s.writeLock, (s.abort t).rollback, ?_, ?_⟩
        · simp [f, hown, hconflict, hraced, abort]
        · simp [hown, hraced]

/-- A transaction that has the lock gets it again. -/
theorem locks_of_owned {raced : Option Nat} (h : s.writeLock = (s.db.txns t).finish) :
    s.locks t raced = true := by
  simp [locks, h]

/-- The lock and the rollback flags are all that `TryLock` writes. -/
theorem ends_tryLock {P : DatabaseCatalog → Prop} {E : DatabaseCatalog → Prop} (raced : Option Nat)
    (h : ∀ s lock rollback, P s → P { s with writeLock := lock, rollback := rollback }) :
    Ends P (tryLock t raced) (fun _ => P) E := by
  intro s hs
  obtain ⟨lock, rollback, hlock, -⟩ := tryLock_eq s t raced
  rw [hlock]
  exact h s lock rollback hs

theorem sound_entered (hs : SoundFor t s) (hsteps : StepsOf tbl steps)
    (hpass : ∀ step ∈ steps, step.passes env t s chunk = true) :
    SoundFor t (s.entered env t tbl chunk steps) := by
  obtain ⟨⟨hw, htables, hidle⟩, hctl⟩ := hs
  refine ⟨⟨wellFormed_entered hw hsteps hpass, ?_, ?_⟩, ?_⟩
  · intro index key tid hmem
    rcases mem_entered.mp hmem with ⟨hindex, -, -⟩ | hold
    · obtain ⟨step, hstep, hwrites⟩ := mem_written.mp hindex
      exact ⟨tbl, (hsteps step hstep index hwrites).1⟩
    · exact htables index key tid hold
  · rw [db_entered]
    exact Db.idleEmpty_insertTuple hidle (by simp [hctl])
  · rw [db_entered, (Db.txns_insertTuple t).2.2, hctl]

/-- An entry keeps what its row and any of its steps keep, also when one of them fails. -/
theorem ends_insertEntry {P : DatabaseCatalog → Prop} (hw : ∀ s, P s → s.WellFormed)
    (h : ∀ s steps, P s → StepsOf tbl steps → (∀ step ∈ steps, step.passes env t s chunk = true) →
      P (s.entered env t tbl chunk steps))
    (hsep : Separate steps) (hsteps : StepsOf tbl steps) :
    Ends P (insertEntry env t tbl chunk steps) (fun _ => P) P := by
  intro s hs
  rw [insertEntry_eq (hw s hs) hsep]
  cases hfind : steps.find? fun step => !step.passes env t s chunk with
  | none =>
      refine h s steps hs hsteps fun step hmem => ?_
      have hpass := List.find?_eq_none.mp hfind step hmem
      simpa using hpass
  | some step =>
      refine h s _ hs (fun step hmem => hsteps step ?_) fun step hmem => ?_
      · exact (List.takeWhile_sublist _).subset hmem
      · exact List.all_eq_true.mp List.all_takeWhile step hmem

/-- Calls that create no entry: the versions of the tuples in the indexes stay, and what
is deleted stays deleted. -/
theorem Sound.of_heads (h : s.Sound) (hchains : s'.db.ChainsValid) (hidle : s'.db.IdleEmpty)
    (hschema : s'.db.schema = s.db.schema) (hpage : s.fsm.nextPageId ≤ s'.fsm.nextPageId)
    (hcount : ∀ tblId pid, s.db.count tblId pid ≤ s'.db.count tblId pid)
    (hindexes : s'.indexes = s.indexes)
    (hheads : ∀ index key tid, tid ∈ (s.indexes index).get key → ∀ undo,
      s.db.getDelta tid index.heapTblId = some undo → ∃ undo',
        s'.db.getDelta tid index.heapTblId = some undo' ∧
        (undo.isDeleted = true → undo'.isDeleted = true)) : s'.Sound := by
  have hw := h.wellFormed
  have hlive : ∀ index key tid, tid ∈ (s.indexes index).get key →
      s'.db.isLive tid index.heapTblId = true → s.db.isLive tid index.heapTblId = true := by
    intro index key tid hmem hlive
    obtain ⟨undo, hundo⟩ := hw.versioned index key tid hmem
    obtain ⟨undo', hundo', hdeleted⟩ := hheads index key tid hmem undo hundo
    unfold Db.isLive at hlive ⊢
    rw [hundo', Option.all_some, Bool.not_eq_true'] at hlive
    rw [hundo, Option.all_some, Bool.not_eq_true']
    cases hd : undo.isDeleted with
    | false => rfl
    | true => rw [hdeleted hd] at hlive; exact hlive
  refine ⟨⟨hchains, ?_, Nat.le_trans hw.page hpage, ?_, ?_, ?_⟩, ?_, hidle⟩
  · rw [hschema]
    exact hw.schema
  · intro index key tid hmem
    rw [hindexes] at hmem
    obtain ⟨hpos, halloc⟩ := hw.allocated index key tid hmem
    exact ⟨hpos, Nat.lt_of_lt_of_le halloc (hcount ..)⟩
  · intro index key tid hmem
    rw [hindexes] at hmem
    obtain ⟨undo, hundo⟩ := hw.versioned index key tid hmem
    obtain ⟨undo', hundo', -⟩ := hheads index key tid hmem undo hundo
    exact ⟨undo', hundo'⟩
  · intro index hunique key tid tid' hmem hmem' hl hl'
    rw [hindexes] at hmem hmem'
    exact hw.unique index hunique key tid tid' hmem hmem' (hlive _ _ _ hmem hl)
      (hlive _ _ _ hmem' hl')
  · rw [hindexes]
    exact h.ofTables

/-- A delete through an index keeps the catalog sound. -/
theorem sound_deleteUndoRaw (hs : SoundFor t s) (tid : TupleId) (tblId : Nat) :
    SoundFor t { s with db := (s.db.deleteUndoRaw t tid tblId).2 } := by
  have hw := Db.written_tableWrite s.db t .deleteRaw (tid.slot tblId)
  have hv := hs.1.wellFormed.chains
  refine ⟨hs.1.of_heads (hw.chainsValid hv) (hw.idleEmpty hs.1.idle (by simp [hs.2])) hw.schema
    (Nat.le_refl _) (fun a b => Nat.le_of_eq (by rw [← hw.count]; rfl)) rfl ?_, ?_⟩
  · intro index key tid' hmem undo hundo
    unfold Db.getDelta at hundo ⊢
    rw [Db.newest_deleteUndoRaw hv]
    split
    · exact ⟨_, rfl, fun _ => rfl⟩
    · exact ⟨undo, hundo, id⟩
  · exact ((hw.txns t).2.2).trans hs.2

/-- A delete keeps what the delete of a tuple keeps. -/
theorem ends_deleteEntry {P E : DatabaseCatalog → Prop}
    (h : ∀ s tid tblId, P s → P { s with db := (s.db.deleteUndoRaw t tid tblId).2 })
    (index : IndexOid)
    (chunk : DataChunk) : Ends P (deleteEntry env t index chunk) (fun _ => P) E := by
  refine Ends.get_bind fun s hs => ?_
  split
  · exact Ends.pure fun s' heq => heq ▸ hs
  · refine Ends.ite (fun _ => Ends.pure fun s' heq => heq ▸ hs) fun _ => ?_
    refine Ends.modifyGet fun s' heq => ?_
    subst heq
    exact h _ _ _ hs

/-! ## The steps of the entries -/

section Steps

attribute [local simp] Separate StepsOf EntryStep.writes EntryStep.reads IndexOid.isUnique
  IndexOid.heapTblId
  CatalogTable.oid

theorem separate_namespaceSteps : Separate namespaceSteps := by simp [namespaceSteps]

theorem stepsOf_namespaceSteps : StepsOf .namespaces namespaceSteps := by simp [namespaceSteps]

theorem separate_columnSteps : Separate columnSteps := by simp [columnSteps]

theorem stepsOf_columnSteps : StepsOf .attributes columnSteps := by simp [columnSteps]

theorem separate_tableSteps : Separate tableSteps := by simp [tableSteps]

theorem stepsOf_tableSteps : StepsOf .classes tableSteps := by simp [tableSteps]

theorem separate_indexSteps : Separate indexSteps := by simp [indexSteps]

theorem stepsOf_indexSteps : StepsOf .indexes indexSteps := by simp [indexSteps]

theorem separate_constraintSteps (props : ConstraintProps) : Separate (constraintSteps props) := by
  simp [constraintSteps]

theorem stepsOf_constraintSteps (props : ConstraintProps) :
    StepsOf .constraints (constraintSteps props) := by
  simp [constraintSteps]

end Steps

/-! ## The operations -/

/-- The calls of the catalog. -/
def Action.ofCatalog : Action → Bool
  | .createNamespace .. | .deleteNamespace .. | .updateNamespaceName .. | .createTable ..
  | .createIndexClass .. | .updateTableName .. | .createIndex .. | .createConstraint .. => true
  | .begin _ | .commit .. | .insert .. | .write .. => false

/-- The column of a table that holds names. -/
def nameColumn : CatalogTable → Option ColOid
  | .namespaces => some nspname
  | .classes => some relname
  | .attributes => some attname
  | .constraints => some conname
  | .indexes => none

/-- A row of the table whose name is one of these. -/
def NamedBy (names : List Byte → Prop) (tbl : CatalogTable) (chunk : DataChunk) : Prop :=
  ∀ c, nameColumn tbl = some c → ∃ name, names name ∧ chunk.get c = some (Value.entry name)

section Named

variable {names : List Byte → Prop} {oid : Oid} {name : List Byte}

theorem namedBy_namespaceChunk (h : names name) :
    NamedBy names .namespaces (buildNamespaceChunk oid name) := by
  rintro c ⟨⟩
  exact ⟨name, h, rfl⟩

theorem namedBy_classChunk {namespaceOid : Oid} {kind : RelKind} {options : List Byte}
    (h : names name) :
    NamedBy names .classes (buildClassChunk oid name namespaceOid kind options) := by
  rintro c ⟨⟩
  exact ⟨name, h, rfl⟩

theorem namedBy_columnChunk {relOid : Oid} {column : SchemaColumn} (h : names column.name) :
    NamedBy names .attributes (columnChunk oid relOid column) := by
  rintro c ⟨⟩
  exact ⟨column.name, h, rfl⟩

theorem namedBy_constraintChunk {props : ConstraintProps} (h : names props.name) :
    NamedBy names .constraints (buildConstraintChunk oid props) := by
  rintro c ⟨⟩
  exact ⟨props.name, h, rfl⟩

theorem namedBy_indexes (chunk : DataChunk) : NamedBy names .indexes chunk := by
  rintro c ⟨⟩

end Named

/-- What the parts of the operations keep, where rows get these names. -/
structure Kept (env : CatalogEnv) (t : TxnId) (names : List Byte → Prop)
    (P : DatabaseCatalog → Prop) : Prop where
  lock : ∀ s lock rollback, P s → P { s with writeLock := lock, rollback := rollback }
  namespaceOid : ∀ s, P s → P { s with nextNamespaceOid := s.nextNamespaceOid + 1 }
  classOid : ∀ s, P s → P { s with nextClassOid := s.nextClassOid + 1 }
  attributeOid : ∀ s, P s → P { s with nextAttributeOid := s.nextAttributeOid + 1 }
  constraintOid : ∀ s, P s → P { s with nextConstraintOid := s.nextConstraintOid + 1 }
  entry : ∀ tbl chunk steps, Separate steps → StepsOf tbl steps → NamedBy names tbl chunk →
    Ends P (insertEntry env t tbl chunk steps) (fun _ => P) P

theorem ends_take {α : Type} {P E : DatabaseCatalog → Prop}
    {f : DatabaseCatalog → α × DatabaseCatalog}
    (h : ∀ s, P s → P (f s).2) : Ends P (modifyGet f : CatalogM α) (fun _ => P) E :=
  Ends.modifyGet fun s hs => h s hs

/-- The checks read only. -/
theorem ends_existsNamespace {P : DatabaseCatalog → Prop} (oid : Oid) :
    Ends P (existsNamespace env oid) (fun _ => P) P :=
  Ends.get_bind fun _ hs => Ends.ite (fun _ => Ends.pure fun _ heq => heq ▸ hs) fun _ =>
    Ends.throw fun _ heq => heq ▸ hs

theorem ends_existsTable {P : DatabaseCatalog → Prop} (oid : Oid) :
    Ends P (existsTable env oid) (fun _ => P) P :=
  Ends.get_bind fun _ hs => Ends.ite (fun _ => Ends.pure fun _ heq => heq ▸ hs) fun _ =>
    Ends.throw fun _ heq => heq ▸ hs

/-- Whether a call fails is no part of what is kept. -/
theorem ends_succeeded {α : Type} {m : CatalogM α} {P E : DatabaseCatalog → Prop}
    (h : Ends P m (fun _ => P) P) :
    Ends P (succeeded m) (fun _ => P) E := by
  intro s hs
  have hend := h s hs
  unfold succeeded
  cases hrun : m s with
  | ok a s' =>
      rw [hrun] at hend
      exact hend
  | error e s' =>
      rw [hrun] at hend
      exact hend

/-- However a call ends. -/
theorem ends_after {α : Type} {m : CatalogM α} {P : DatabaseCatalog → Prop}
    (h : Ends P m (fun _ => P) P) (hs : P s) : P (after m s) := by
  have hend := h s hs
  unfold after
  cases hrun : m s with
  | ok a s' =>
      rw [hrun] at hend
      exact hend
  | error e s' =>
      rw [hrun] at hend
      exact hend

namespace Kept

variable {names : List Byte → Prop} {P : DatabaseCatalog → Prop} (h : Kept env t names P)

include h

theorem tryLock {E : DatabaseCatalog → Prop} (raced : Option Nat) :
    Ends P (DatabaseCatalog.tryLock t raced) (fun _ => P) E :=
  ends_tryLock raced h.lock

theorem createNamespaceEntry {name : List Byte} (hname : names name) (oid : Oid) :
    Ends P (createNamespaceEntry env t name oid) (fun _ => P) P :=
  (h.entry _ _ _ separate_namespaceSteps stepsOf_namespaceSteps (namedBy_namespaceChunk hname)).bind
    fun _ =>
    Ends.pure fun _ hs => hs

theorem createNamespace (raced : Option Nat) {name : List Byte} (hname : names name) :
    Ends P (createNamespace env t raced name) (fun _ => P) P := by
  refine (h.tryLock raced).bind fun locked => Ends.ite (fun _ => ?_) fun _ =>
    Ends.throw fun _ hs => hs
  exact (ends_take h.namespaceOid).bind fun oid => h.createNamespaceEntry hname oid

theorem createColumnEntry (relOid : Oid) {column : SchemaColumn} (hname : names column.name) :
    Ends P (createColumnEntry env t relOid column) (fun _ => P) P :=
  (ends_take h.attributeOid).bind fun _ =>
    (h.entry _ _ _ separate_columnSteps stepsOf_columnSteps (namedBy_columnChunk hname)).bind
      fun _ =>
      Ends.pure fun _ hs => hs

theorem createColumns (relOid : Oid) {columns : SchemaColumns}
    (hnames : ∀ column ∈ columns, names column.name) :
    Ends P (createColumns env t relOid columns) (fun _ => P) P := by
  induction columns with
  | nil => exact Ends.pure fun _ hs => hs
  | cons column columns ih =>
      obtain ⟨hname, hnames⟩ := List.forall_mem_cons.mp hnames
      exact (h.createColumnEntry relOid hname).bind fun _ => ih hnames

theorem createTableEntry {name : List Byte} (hname : names name) (oid namespaceOid : Oid)
    (kind : RelKind) :
    Ends P (createTableEntry env t name oid namespaceOid kind) (fun _ => P) P :=
  (h.entry _ _ _ separate_tableSteps stepsOf_tableSteps (namedBy_classChunk hname)).bind fun _ =>
    Ends.pure fun _ hs => hs

theorem createClass (kind : RelKind) (raced : Option Nat) {name : List Byte} (hname : names name)
    (namespaceOid : Oid) {schema : SchemaColumns} (hnames : ∀ column ∈ schema, names column.name) :
    Ends P (createClass env t kind raced name namespaceOid schema) (fun _ => P) P := by
  refine (h.tryLock raced).bind fun locked => Ends.ite (fun _ => ?_) fun _ =>
    Ends.pure fun _ hs => hs
  refine (ends_existsNamespace namespaceOid).bind fun _ => ?_
  refine (ends_take h.classOid).bind fun oid => ?_
  refine (h.createTableEntry hname oid namespaceOid kind).bind fun relOid => ?_
  exact (h.createColumns relOid hnames).bind fun _ => Ends.pure fun _ hs => hs

theorem createIndexEntry (classOid relOid : Oid) (schema : IndexSchema) :
    Ends P (createIndexEntry env t classOid relOid schema) (fun _ => P) P :=
  (h.entry _ _ _ separate_indexSteps stepsOf_indexSteps (namedBy_indexes _)).bind fun _ =>
    Ends.pure fun _ hs => hs

theorem createIndex (raced : Option Nat) {name : List Byte} (hname : names name)
    (relOid namespaceOid : Oid)
    {schema : IndexSchema} (hnames : ∀ column ∈ schema.columns, names column.name) :
    Ends P (createIndex env t raced name relOid namespaceOid schema) (fun _ => P) P := by
  refine (h.tryLock raced).bind fun locked => Ends.ite (fun _ => ?_) fun _ =>
    Ends.pure fun _ hs => hs
  refine (ends_existsTable relOid).bind fun _ => ?_
  refine (h.createClass .index none hname namespaceOid hnames).bind fun classOid => ?_
  exact (h.createIndexEntry classOid relOid schema).bind fun _ => Ends.pure fun _ hs => hs

theorem createConstraintEntry (oid : Oid) {props : ConstraintProps} (hname : names props.name) :
    Ends P (createConstraintEntry env t oid props) (fun _ => P) P :=
  (h.entry _ _ _ (separate_constraintSteps props) (stepsOf_constraintSteps props)
    (namedBy_constraintChunk hname)).bind fun _ => Ends.pure fun _ hs => hs

theorem createConstraint (raced : Option Nat) {props : ConstraintProps} (hname : names props.name) :
    Ends P (createConstraint env t raced props) (fun _ => P) P := by
  refine (h.tryLock raced).bind fun locked => Ends.ite (fun _ => ?_) fun _ =>
    Ends.pure fun _ hs => hs
  exact (ends_take h.constraintOid).bind fun oid => h.createConstraintEntry oid hname

section Deletes

variable (hdelete : ∀ index chunk, Ends P (deleteEntry env t index chunk) (fun _ => P) P)

include hdelete

theorem deleteNamespace (raced : Option Nat) (oid : Oid) :
    Ends P (deleteNamespace env t raced oid) (fun _ => P) P :=
  (h.tryLock raced).bind fun _ => Ends.ite (fun _ => hdelete _ _) fun _ => Ends.pure fun _ hs => hs

theorem updateNamespaceName (oid : Oid) {name : List Byte} (hname : names name) :
    Ends P (updateNamespaceName env t oid name) (fun _ => P) P :=
  (hdelete _ _).bind fun _ =>
    Ends.ite (fun _ => ends_succeeded (h.createNamespaceEntry hname oid)) fun _ =>
      Ends.pure fun _ hs => hs

theorem updateTableName (oid : Oid) {name : List Byte} (hname : names name) (namespaceOid : Oid) :
    Ends P (updateTableName env t oid name namespaceOid) (fun _ => P) P :=
  (hdelete _ _).bind fun _ =>
    Ends.ite (fun _ => ends_succeeded (h.createTableEntry hname oid namespaceOid .regularTable))
      fun _ =>
      Ends.pure fun _ hs => hs

end Deletes

/-- A call of `t` keeps it. -/
theorem call (hdelete : ∀ index chunk, Ends P (deleteEntry env t index chunk) (fun _ => P) P)
    {a : Action}
    (ha : a.ofCatalog = true) (ht : a.txn = t) (hnames : ∀ name ∈ a.names, names name) (hs : P s) :
    P (s.call env a) := by
  subst ht
  cases a with
  | createNamespace t raced name =>
      exact ends_after (h.createNamespace raced (hnames name List.mem_cons_self)) hs
  | deleteNamespace t raced oid => exact ends_after (h.deleteNamespace hdelete raced oid) hs
  | updateNamespaceName t oid name =>
      exact ends_after (h.updateNamespaceName hdelete oid (hnames name List.mem_cons_self)) hs
  | createTable t raced name namespaceOid schema =>
      obtain ⟨hname, hschema⟩ := List.forall_mem_cons.mp hnames
      exact ends_after
        (h.createClass .regularTable raced hname namespaceOid (List.forall_mem_map.mp hschema)) hs
  | createIndexClass t raced name namespaceOid schema =>
      obtain ⟨hname, hschema⟩ := List.forall_mem_cons.mp hnames
      exact ends_after
        (h.createClass .index raced hname namespaceOid (List.forall_mem_map.mp hschema)) hs
  | updateTableName t oid name namespaceOid =>
      exact ends_after (h.updateTableName hdelete oid (hnames name List.mem_cons_self) namespaceOid)
        hs
  | createIndex t raced name relOid namespaceOid schema =>
      obtain ⟨hname, hschema⟩ := List.forall_mem_cons.mp hnames
      exact ends_after
        (h.createIndex raced hname relOid namespaceOid (List.forall_mem_map.mp hschema)) hs
  | createConstraint t raced props =>
      exact ends_after (h.createConstraint raced (hnames props.name List.mem_cons_self)) hs
  | begin t => exact absurd ha (by simp [Action.ofCatalog])
  | commit t stops => exact absurd ha (by simp [Action.ofCatalog])
  | insert t tblId size chunk => exact absurd ha (by simp [Action.ofCatalog])
  | write t op slot => exact absurd ha (by simp [Action.ofCatalog])

end Kept

theorem kept_soundFor : Kept env t (fun _ => True) (SoundFor t) where
  lock _ _ _ hs := hs.of_same rfl rfl rfl
  namespaceOid _ hs := hs.of_same rfl rfl rfl
  classOid _ hs := hs.of_same rfl rfl rfl
  attributeOid _ hs := hs.of_same rfl rfl rfl
  constraintOid _ hs := hs.of_same rfl rfl rfl
  entry _ _ _ hsep hsteps _ :=
    ends_insertEntry (fun _ hs => hs.1.wellFormed) (fun _ _ hs => sound_entered hs) hsep hsteps

/-! ## Runs -/

theorem sound_init (h : s.Init) : s.Sound := by
  obtain ⟨⟨-, -, htxns, hversions, -⟩, hschema, hpage, hindexes, -⟩ := h
  have hempty : ∀ index key tid, tid ∉ (s.indexes index).get key := by
    intro index key tid hmem
    rw [hindexes] at hmem
    exact absurd hmem List.not_mem_nil
  refine ⟨⟨?_, hschema, hpage, ?_, ?_, ?_⟩, ?_, ?_⟩
  · intro x p hp
    rw [hversions] at hp
    exact absurd hp List.not_mem_nil
  · exact fun index key tid hmem => absurd hmem (hempty index key tid)
  · exact fun index key tid hmem => absurd hmem (hempty index key tid)
  · exact fun index _ key tid _ hmem _ => absurd hmem (hempty index key tid)
  · exact fun index key tid hmem => absurd hmem (hempty index key tid)
  · intro t _
    rw [htxns]

theorem sound_begin (hs : s.Sound) (hctl : (s.db.txns t).ctl = .idle) :
    Sound { s with db := s.db.beginAlone t } := by
  have hv := hs.wellFormed.chains
  refine hs.of_heads (Db.chainsValid_beginAlone hv hs.idle hctl)
    (Db.idleEmpty_beginAlone hs.idle hctl) ?_
    (Nat.le_refl _) ?_ rfl ?_
  · show (s.db.beginAlone t).schema = _
    unfold Db.beginAlone Db.tryLatch
    split <;> rfl
  · intro tblId pid
    show _ ≤ (s.db.beginAlone t).count tblId pid
    unfold Db.beginAlone Db.tryLatch
    split <;> exact Nat.le_refl _
  · intro index key tid _ undo hundo
    exact ⟨undo, (Db.newest_beginAlone hv hs.idle hctl _).trans hundo, id⟩

theorem sound_commit (hs : s.Sound) (stops : List Nat) :
    Sound { s with db := s.db.commitThrough t stops } := by
  refine hs.of_heads (Db.chainsValid_commitThrough hs.wellFormed.chains)
    (Db.idleEmpty_commitThrough hs.idle) rfl
    (Nat.le_refl _) (fun _ _ => Nat.le_refl _) rfl ?_
  intro index key tid _ undo hundo
  have htype := @Db.type_commitThrough s.db t stops (tid.slot index.heapTblId)
  unfold Db.getDelta at hundo ⊢
  rw [hundo] at htype
  obtain ⟨undo', hundo', htype'⟩ := Option.map_eq_some_iff.mp htype
  refine ⟨undo', hundo', fun hdeleted => ?_⟩
  unfold UndoRecord.isDeleted at hdeleted ⊢
  rwa [htype']

/-- Users insert into their own tables. -/
theorem sound_insert (hs : SoundFor t s) (tblId size : Nat) (chunk : DataChunk) :
    Sound { s with
      fsm := (s.fsm.get size).2
      db := s.db.insertTuple t tblId (s.fsm.get size).1 chunk } := by
  have hv := hs.1.wellFormed.chains
  refine hs.1.of_heads (Db.chainsValid_insertTuple hv)
    (Db.idleEmpty_insertTuple hs.1.idle (by simp [hs.2]))
    rfl (s.fsm.le_page size) (fun a b => Db.count_le_insertTuple ..) rfl ?_
  intro index key tid hmem undo hundo
  refine ⟨undo, ?_, id⟩
  unfold Db.getDelta at hundo ⊢
  rw [Db.newest_insertTuple hv, if_neg]
  · exact hundo
  · intro heq
    -- the tuple that is filled is not one of an index
    have halloc := (hs.1.wellFormed.allocated index key tid hmem).2
    have htbl : index.heapTblId = tblId := congrArg Slot.tbl heq
    have hpid : tid.pageId = (s.fsm.get size).1 := congrArg Slot.pid heq
    have hidx : tid.idx = s.db.count tblId (s.fsm.get size).1 := congrArg Slot.idx heq
    unfold Allocated at halloc
    rw [htbl, hpid, hidx] at halloc
    exact Nat.lt_irrefl _ halloc

/-- Users write their own tables. -/
theorem sound_write (hs : SoundFor t s) (op : WriteOp) (slot : Slot)
    (htbl : ∀ tbl : CatalogTable, slot.tbl ≠ tbl.oid) :
    Sound { s with db := s.db.tableWrite t op slot } := by
  have hv := hs.1.wellFormed.chains
  have hw := Db.written_tableWrite s.db t op slot
  refine hs.1.of_heads (hw.chainsValid hv) (hw.idleEmpty hs.1.idle (by simp [hs.2])) hw.schema
    (Nat.le_refl _)
    (fun a b => Nat.le_of_eq (by rw [← hw.count])) rfl ?_
  intro index key tid hmem undo hundo
  obtain ⟨tbl, htable⟩ := hs.1.ofTables index key tid hmem
  have hne : tid.slot index.heapTblId ≠ slot := by
    rintro rfl
    exact htbl tbl htable
  exact ⟨undo, (hw.newest_of_ne hv hne).trans hundo, id⟩

theorem active_of_enabled {a : Action} (ha : a.ofCatalog = true) (h : s.Enabled a) :
    (s.db.txns a.txn).ctl = .active := by
  cases a <;> first | exact h | exact absurd ha (by simp [Action.ofCatalog])

/-- **Every reachable catalog is sound.** -/
theorem sound_reachable (h : Reachable env s) : s.Sound := by
  induction h with
  | init hi => exact sound_init hi
  | @step s a _ henabled ih =>
      by_cases ha : a.ofCatalog = true
      · exact (kept_soundFor.call
          (ends_deleteEntry fun _ tid tblId hs => sound_deleteUndoRaw hs tid tblId) ha rfl
          (fun _ _ => trivial) ⟨ih, active_of_enabled ha henabled⟩).1
      · cases a with
        | begin t => exact sound_begin ih henabled
        | commit t stops => exact sound_commit ih stops
        | insert t tblId size chunk => exact sound_insert ⟨ih, henabled.1⟩ tblId size chunk
        | write t op slot => exact sound_write ⟨ih, henabled.1⟩ op slot henabled.2
        | createNamespace | deleteNamespace | updateNamespaceName | createTable | createIndexClass
        | updateTableName | createIndex | createConstraint => exact absurd rfl ha

/-- A catalog as `Builder` makes it, before any transaction. -/
def fresh : DatabaseCatalog where
  db := { Db.empty with schema := fun tblId =>
    if tblId = CatalogTable.namespaces.oid then CatalogTable.namespaces.schema
    else if tblId = CatalogTable.classes.oid then CatalogTable.classes.schema
    else if tblId = CatalogTable.attributes.oid then CatalogTable.attributes.schema
    else if tblId = CatalogTable.indexes.oid then CatalogTable.indexes.schema
    else if tblId = CatalogTable.constraints.oid then CatalogTable.constraints.schema
    else ⟨[], List.nodup_nil⟩ }
  fsm := ⟨1, FreeSpaceManagerVarlen.pageSpace⟩
  indexes := fun _ => .empty
  nextNamespaceOid := 1
  nextClassOid := 1
  nextAttributeOid := 1
  nextConstraintOid := 1
  writeLock := 0
  rollback := fun _ => false

theorem fresh_init : fresh.Init :=
  ⟨⟨rfl, rfl, fun _ => rfl, fun _ => rfl, fun _ _ => rfl⟩, fun tbl => by
    cases tbl <;> rfl, Nat.le_refl _,
    fun _ => rfl, rfl, rfl, rfl, rfl, rfl, fun _ => rfl⟩

end DatabaseCatalog

end Db7
