import Db7.Catalog.Attributes
import Db7.Catalog.KeyScans

/-!
# What a failed call leaves behind

Nothing undoes what `CreateTable`, `CreateIndex` or `CreateConstraint` has written when
a later step fails. A row that no index names cannot be found, so the failure goes
unnoticed exactly when it comes before the first index entry (`failed_call_unnoticed`).

* **growth** (`kept_growsFrom`): what there was stays;
* **remains** (`LeftBehind`): a tuple that is found afterwards and was not before.
-/

namespace Db7

open Lib Function DataChunkBuilder

namespace DatabaseCatalog

variable {env : CatalogEnv} {t : TxnId} {s s' s₀ : DatabaseCatalog} {chunk : DataChunk}
  {tbl : CatalogTable} {steps : List EntryStep} {tid : TupleId} {index : IndexOid} {key : Key}

/-- Does the check succeed? -/
def answer (check : CatalogM Unit) (s : DatabaseCatalog) : Bool :=
  match check s with
  | .ok _ _ => true
  | .error _ _ => false

theorem after_congr {α : Type} {m m' : CatalogM α} {r : DatabaseCatalog} (h : m s = m' r) :
    after m s = after m' r := by
  unfold after
  rw [h]

theorem existsNamespace_eq (oid : Oid) (s : DatabaseCatalog) : existsNamespace env oid s =
    if s.rowExists env .namespaceNspoid (buildNamespaceOidChunk oid) then .ok () s
    else .error "Namespace does not exist" s :=
  @EntryStep.run_eq env 0 s [] invalidTid (.existsNamespace oid)

theorem existsTable_eq (oid : Oid) (s : DatabaseCatalog) : existsTable env oid s =
    if s.rowExists env .classReloid (buildClassOidChunk oid) then .ok () s
    else .error "Namespace does not exist" s :=
  @EntryStep.run_eq env 0 s [] invalidTid (.existsTable oid)

theorem answer_existsNamespace (oid : Oid) : answer (existsNamespace env oid) s =
    s.rowExists env .namespaceNspoid (buildNamespaceOidChunk oid) := by
  unfold answer
  rw [existsNamespace_eq]
  cases h : s.rowExists env .namespaceNspoid (buildNamespaceOidChunk oid) <;> simp

theorem answer_existsTable (oid : Oid) : answer (existsTable env oid) s =
    s.rowExists env .classReloid (buildClassOidChunk oid) := by
  unfold answer
  rw [existsTable_eq]
  cases h : s.rowExists env .classReloid (buildClassOidChunk oid) <;> simp

/-- The checks answer as before, and the indexes name the same tuples that are not
deleted. -/
structure Unnoticed (env : CatalogEnv) (s s' : DatabaseCatalog) : Prop where
  namespaces : ∀ oid, answer (existsNamespace env oid) s' = answer (existsNamespace env oid) s
  tables : ∀ oid, answer (existsTable env oid) s' = answer (existsTable env oid) s
  live : ∀ index key tid,
    (tid ∈ (s'.indexes index).get key ∧ s'.db.isLive tid index.heapTblId = true) ↔
      (tid ∈ (s.indexes index).get key ∧ s.db.isLive tid index.heapTblId = true)

/-- Every index shows what it showed. -/
theorem unnoticed_of_sameThrough (h : ∀ index, SameThrough t s s' index) : Unnoticed env s s' := by
  refine ⟨fun oid => ?_, fun oid => ?_, fun index key tid => ?_⟩
  · rw [answer_existsNamespace, answer_existsNamespace]
    exact (h .namespaceNspoid).rowExists
  · rw [answer_existsTable, answer_existsTable]
    exact (h .classReloid).rowExists
  · rw [(h index).entries]
    refine and_congr_right fun hmem => ?_
    rw [isLive_congr ((h index).delta key tid hmem)]

theorem sameThrough_of_eq (hdb : s'.db = s.db) (hindexes : s'.indexes = s.indexes) :
    SameThrough t s s' index where
  entries := by rw [hindexes]
  delta := fun _ _ _ => by rw [hdb]
  times := ⟨by rw [hdb], by rw [hdb]⟩

/-- A tuple that an index names now and did not before. -/
structure LeftBehind (s s' : DatabaseCatalog) (index : IndexOid) (key : Key) (tid : TupleId) :
    Prop where
  found : tid ∈ (s'.indexes index).get key
  live : s'.db.isLive tid index.heapTblId = true
  allocated : s'.Allocated tid index.heapTblId
  notBefore : tid ∉ (s.indexes index).get key

theorem LeftBehind.noticed (h : LeftBehind s s' index key tid) : ¬ Unnoticed env s s' :=
  fun hun => h.notBefore ((hun.live index key tid).mp ⟨h.found, h.live⟩).1

/-- What comes later leaves it. -/
theorem LeftBehind.grows {s'' : DatabaseCatalog} (h : LeftBehind s s' index key tid)
    (hg : Grows s' s'') :
    LeftBehind s s'' index key tid where
  found := hg.entries index key tid h.found
  live := by
    rw [isLive_congr (hg.newest tid index.heapTblId h.allocated)]
    exact h.live
  allocated := hg.allocated h.allocated
  notBefore := h.notBefore

/-- An entry that has been made. -/
theorem leftBehind_entered (hw : s.WellFormed) (hindex : index ∈ written steps)
    (htbl : index.heapTblId = tbl.oid) :
    LeftBehind s (s.entered env t tbl chunk steps) index (env.columns index chunk)
    (s.nextTid env tbl) where
  found := mem_entered.mpr (.inl ⟨hindex, rfl, rfl⟩)
  live := by
    rw [htbl]
    exact isLive_nextTid hw
  allocated := by
    unfold Allocated
    rw [db_entered, htbl, Db.count_insertTuple, if_pos ⟨rfl, rfl⟩]
    exact Nat.lt_succ_self _
  notBefore hmem := by
    have halloc := (hw.allocated index _ _ hmem).2
    rw [htbl] at halloc
    exact Nat.lt_irrefl _ halloc

/-! ## Growth -/

/-- Sound, and with all that `s₀` had. -/
structure GrowsFrom (t : TxnId) (s₀ s : DatabaseCatalog) : Prop where
  sound : SoundFor t s
  grows : Grows s₀ s
  times : SameTimes t s₀ s

theorem GrowsFrom.refl (hs : SoundFor t s) : GrowsFrom t s s := ⟨hs, .refl s, rfl, rfl⟩

theorem GrowsFrom.trans {s'' : DatabaseCatalog} (h : GrowsFrom t s₀ s) (h' : GrowsFrom t s s'') :
    GrowsFrom t s₀ s'' :=
  ⟨h'.sound, h.grows.trans h'.grows, h'.times.1.trans h.times.1, h'.times.2.trans h.times.2⟩

theorem GrowsFrom.of_same (h : GrowsFrom t s₀ s) (hdb : s'.db = s.db) (hfsm : s'.fsm = s.fsm)
    (hindexes : s'.indexes = s.indexes) : GrowsFrom t s₀ s' where
  sound := h.sound.of_same hdb hfsm hindexes
  grows := h.grows.trans (.of_eq hdb hindexes)
  times := by
    unfold SameTimes
    rw [hdb]
    exact h.times

theorem GrowsFrom.entered (h : GrowsFrom t s₀ s) (hsteps : StepsOf tbl steps)
    (hpass : ∀ step ∈ steps, step.passes env t s chunk = true) :
    GrowsFrom t s₀ (s.entered env t tbl chunk steps) where
  sound := sound_entered h.sound hsteps hpass
  grows := h.grows.trans (grows_entered h.sound.1.wellFormed)
  times := ⟨sameTimes_entered.1.trans h.times.1, sameTimes_entered.2.trans h.times.2⟩

theorem kept_growsFrom : Kept env t (fun _ => True) (GrowsFrom t s₀) where
  lock _ _ _ hs := hs.of_same rfl rfl rfl
  namespaceOid _ hs := hs.of_same rfl rfl rfl
  classOid _ hs := hs.of_same rfl rfl rfl
  attributeOid _ hs := hs.of_same rfl rfl rfl
  constraintOid _ hs := hs.of_same rfl rfl rfl
  entry _ _ _ hsep hsteps _ :=
    ends_insertEntry (fun _ hs => hs.sound.1.wellFormed) (fun _ _ hs => hs.entered) hsep hsteps

/-! ## Entries that fail -/

/-- An entry whose first step fails has filled a tuple that nothing names. -/
theorem insertEntry_first (hw : s.WellFormed) {step : EntryStep} (hsep : Separate (step :: steps))
    (hfail : step.passes env t s chunk = false) :
    insertEntry env t tbl chunk (step :: steps) s =
      .error step.message (s.entered env t tbl chunk []) := by
  rw [insertEntry_eq hw hsep]
  simp [hfail]

theorem unnoticed_entered_nil (hw : s.WellFormed) :
    Unnoticed env s (s.entered env t tbl chunk []) :=
  unnoticed_of_sameThrough fun _ => sameThrough_entered hw List.not_mem_nil

/-- An entry whose first step passes leaves its tuple in the index of that step, whether
it succeeds or not. -/
theorem insertEntry_first_passes (hw : s.WellFormed) {step : EntryStep}
    (hsep : Separate (step :: steps))
    (hsteps : StepsOf tbl (step :: steps)) (hpass : step.passes env t s chunk = true)
    (hindex : step.writes = some index) :
    LeftBehind s (after (insertEntry env t tbl chunk (step :: steps)) s) index
      (env.columns index chunk)
      (s.nextTid env tbl) := by
  have htbl := (hsteps step List.mem_cons_self index hindex).1
  unfold after
  rw [insertEntry_eq hw hsep]
  cases hfind : (step :: steps).find? fun step => !step.passes env t s chunk with
  | none =>
      refine leftBehind_entered hw ?_ htbl
      exact mem_written.mpr ⟨step, List.mem_cons_self, hindex⟩
  | some failed =>
      refine leftBehind_entered hw (mem_written.mpr ⟨step, ?_, hindex⟩) htbl
      rw [List.takeWhile_cons, if_pos hpass]
      exact List.mem_cons_self

/-- What the first part leaves, the rest does not take away. -/
theorem LeftBehind.bind {α β : Type} {x : CatalogM α} {f : α → CatalogM β} {r : DatabaseCatalog}
    (h : LeftBehind s (after x r) index key tid) (hs : SoundFor t (after x r))
    (hf : ∀ a s₁, Ends (GrowsFrom t s₁) (f a) (fun _ => GrowsFrom t s₁) (GrowsFrom t s₁)) :
    LeftBehind s (after (x >>= f) r) index key tid := by
  unfold after at h hs ⊢
  cases hrun : x r with
  | error message s₁ =>
      rw [hrun] at h
      rw [run_bind_error hrun]
      exact h
  | ok a s₁ =>
      rw [hrun] at h hs
      rw [run_bind_ok hrun]
      have hgrows := hf a s₁ s₁ (.refl hs)
      cases hend : f a s₁ with
      | ok b s₂ =>
          rw [hend] at hgrows
          exact h.grows hgrows.grows
      | error message s₂ =>
          rw [hend] at hgrows
          exact h.grows hgrows.grows

/-! ## Classes -/

/-- The row of the class that is created next. -/
def nextClassChunk (s : DatabaseCatalog) (kind : RelKind) (name : List Byte) (namespaceOid : Oid) :
    DataChunk :=
  buildClassChunk (.ofNat s.nextClassOid) name namespaceOid kind name

/-- The namespace is missing or the name is taken. -/
def ClassTaken (env : CatalogEnv) (t : TxnId) (s : DatabaseCatalog) (kind : RelKind)
    (name : List Byte) (namespaceOid : Oid) : Prop :=
  s.rowExists env .namespaceNspoid (buildNamespaceOidChunk namespaceOid) = false ∨
    s.taken env t .classRelname (s.nextClassChunk kind name namespaceOid) = true

section Classes

variable {kind : RelKind} {raced : Option Nat} {name : List Byte} {namespaceOid : Oid}
  {schema : SchemaColumns}

/-- `CreateTable` and `CreateIndexClass` with the lock. -/
theorem createClass_locked (hlock : s.locks t raced = true) : ∃ lock rollback,
    createClass env t kind raced name namespaceOid schema s = (do
      existsNamespace env namespaceOid
      let oid ← takeClassOid
      let relOid ← createTableEntry env t name oid namespaceOid kind
      createColumns env t relOid schema
      return oid : CatalogM Oid) { s with writeLock := lock, rollback := rollback } := by
  obtain ⟨lock, rollback, htry, -⟩ := tryLock_eq s t raced
  refine ⟨lock, rollback, ?_⟩
  unfold createClass
  rw [run_bind_ok htry, hlock, if_pos rfl]

/-- With the namespace they come to the row of the class. -/
theorem createClass_row (hlock : s.locks t raced = true)
    (hexists : s.rowExists env .namespaceNspoid (buildNamespaceOidChunk namespaceOid) = true) :
    ∃ r : DatabaseCatalog, r.db = s.db ∧ r.fsm = s.fsm ∧ r.indexes = s.indexes ∧
      createClass env t kind raced name namespaceOid schema s = (do
        let relOid ← createTableEntry env t name (.ofNat s.nextClassOid) namespaceOid kind
        createColumns env t relOid schema
        return .ofNat s.nextClassOid : CatalogM Oid) r := by
  obtain ⟨lock, rollback, hrun⟩ :=
    @createClass_locked env t s kind raced name namespaceOid schema hlock
  let r : DatabaseCatalog := { s with writeLock := lock, rollback := rollback }
  have hcheck : existsNamespace env namespaceOid r = .ok () r := by
    rw [existsNamespace_eq]
    exact if_pos hexists
  have htake :
      takeClassOid r = .ok (.ofNat s.nextClassOid) { r with nextClassOid := r.nextClassOid + 1 } :=
      rfl
  refine ⟨{ r with nextClassOid := r.nextClassOid + 1 }, rfl, rfl, rfl, ?_⟩
  rw [hrun, run_bind_ok hcheck, run_bind_ok htake]

theorem Unnoticed.trans_same {r : DatabaseCatalog} (h : Unnoticed env r s') (hdb : r.db = s.db)
    (hindexes : r.indexes = s.indexes) : Unnoticed env s s' := by
  have hr : Unnoticed env s r :=
    unnoticed_of_sameThrough (t := 0) fun _ => sameThrough_of_eq hdb hindexes
  refine ⟨fun oid => (h.namespaces oid).trans (hr.namespaces oid),
    fun oid => (h.tables oid).trans (hr.tables oid),
    fun index key tid => (h.live index key tid).trans (hr.live index key tid)⟩

theorem LeftBehind.of_same {r : DatabaseCatalog} (h : LeftBehind r s' index key tid)
    (hindexes : r.indexes = s.indexes) : LeftBehind s s' index key tid :=
  ⟨h.found, h.live, h.allocated, by rw [← hindexes]; exact h.notBefore⟩

theorem taken_of_same {r : DatabaseCatalog} (hdb : r.db = s.db) (hindexes : r.indexes = s.indexes) :
    r.taken env t index chunk = s.taken env t index chunk :=
  (sameThrough_of_eq hdb hindexes).taken

/-- A refused class fails unnoticed. -/
theorem createClass_refused (hs : SoundFor t s) (hlock : s.locks t raced = true)
    (h : s.ClassTaken env t kind name namespaceOid) :
    ∃ message s', createClass env t kind raced name namespaceOid schema s = .error message s' ∧
      Unnoticed env s s' := by
  cases hexists : s.rowExists env .namespaceNspoid (buildNamespaceOidChunk namespaceOid) with
  | false =>
      obtain ⟨lock, rollback, hrun⟩ :=
        @createClass_locked env t s kind raced name namespaceOid schema hlock
      let r : DatabaseCatalog := { s with writeLock := lock, rollback := rollback }
      have hcheck : existsNamespace env namespaceOid r = .error "Namespace does not exist" r := by
        rw [existsNamespace_eq]
        refine if_neg ?_
        show ¬ s.rowExists env .namespaceNspoid (buildNamespaceOidChunk namespaceOid) = true
        simp [hexists]
      rw [hrun, run_bind_error hcheck]
      exact ⟨_, r, rfl, unnoticed_of_sameThrough (t := t) fun _ => sameThrough_of_eq rfl rfl⟩
  | true =>
      have htaken : s.taken env t .classRelname (s.nextClassChunk kind name namespaceOid) = true :=
        h.resolve_left (by simp [hexists])
      obtain ⟨r, hdb, hfsm, hindexes, hrun⟩ :=
        @createClass_row env t s kind raced name namespaceOid schema
        hlock hexists
      have hr : SoundFor t r := hs.of_same hdb hfsm hindexes
      rw [← taken_of_same hdb hindexes] at htaken
      -- the first index entry fails
      have hentry : createTableEntry env t name (.ofNat s.nextClassOid) namespaceOid kind r =
          .error _ (r.entered env t .classes (s.nextClassChunk kind name namespaceOid) []) :=
        run_bind_error
          (insertEntry_first hr.1.wellFormed separate_tableSteps (congrArg (! ·) htaken))
      rw [hrun, run_bind_error hentry]
      exact ⟨_, _, rfl, (unnoticed_entered_nil hr.1.wellFormed).trans_same hdb hindexes⟩

/-- A class that is not refused leaves its row in the index of names, whatever comes of
the call. -/
theorem createClass_left (hs : SoundFor t s) (hlock : s.locks t raced = true)
    (h : ¬ s.ClassTaken env t kind name namespaceOid) :
    ∃ key tid, LeftBehind s
      (after (createClass env t kind raced name namespaceOid schema) s) .classRelname
      key tid := by
  obtain ⟨hexists, hfree⟩ := not_or.mp h
  obtain ⟨r, hdb, hfsm, hindexes, hrun⟩ :=
    @createClass_row env t s kind raced name namespaceOid schema
    hlock (by simpa using hexists)
  have hr : SoundFor t r := hs.of_same hdb hfsm hindexes
  rw [← taken_of_same hdb hindexes] at hfree
  have hpass :
      (EntryStep.insertUnique .classRelname "Failed to insert to relname index").passes env t r
      (s.nextClassChunk kind name namespaceOid) = true := by
    show (! r.taken env t .classRelname (s.nextClassChunk kind name namespaceOid)) = true
    simp [hfree]
  have hleft :=
    insertEntry_first_passes hr.1.wellFormed separate_tableSteps stepsOf_tableSteps hpass rfl
  have hrow :
      LeftBehind r (after (createTableEntry env t name (.ofNat s.nextClassOid) namespaceOid kind) r)
      .classRelname _ _ :=
    hleft.bind (ends_after (kept_soundFor.entry _ _ _ separate_tableSteps stepsOf_tableSteps
      (namedBy_classChunk trivial)) hr)
      fun _ _ => Ends.pure fun _ hs => hs
  refine ⟨env.columns .classRelname (s.nextClassChunk kind name namespaceOid),
    r.nextTid env .classes,
    LeftBehind.of_same ?_ hindexes⟩
  · rw [after_congr hrun]
    refine hrow.bind (ends_after (kept_soundFor.createTableEntry trivial _ _ _) hr) fun relOid s₁ =>
      ?_
    exact (kept_growsFrom.createColumns relOid fun _ _ => trivial).bind fun _ =>
      Ends.pure fun _ hs => hs

end Classes

/-! ## The calls -/

/-- The calls that create something other than a namespace. -/
inductive Creation
  | table (name : List Byte) (namespaceOid : Oid) (schema : SchemaColumns)
  | index (name : List Byte) (relOid namespaceOid : Oid) (schema : IndexSchema)
  | constraint (props : ConstraintProps)

namespace Creation

/-- The call itself. -/
def run (env : CatalogEnv) (t : TxnId) (raced : Option Nat) : Creation → CatalogM Oid
  | .table name namespaceOid schema => createTable env t raced name namespaceOid schema
  | .index name relOid namespaceOid schema => createIndex env t raced name relOid
      namespaceOid schema
  | .constraint props => createConstraint env t raced props

/-- The names that the call gives to rows. -/
def names : Creation → List (List Byte)
  | .table name _ schema => name :: schema.map SchemaColumn.name
  | .index name _ _ schema => name :: schema.columns.map SchemaColumn.name
  | .constraint props => [props.name]

/-- Something is missing, or what the first index entry needs is taken. -/
def Taken (env : CatalogEnv) (t : TxnId) (s : DatabaseCatalog) : Creation → Prop
  | .table name namespaceOid _ => s.ClassTaken env t .regularTable name namespaceOid
  | .index name relOid namespaceOid _ =>
      s.rowExists env .classReloid (buildClassOidChunk relOid) = false ∨
        s.ClassTaken env t .index name namespaceOid
  | .constraint props => s.taken env t .constraintConoid
      (buildConstraintChunk (.ofNat s.nextConstraintOid) props)

/-- The answers that `CreateTable` and `CreateIndexClass` get before their first index
entry: the namespace is missing, or `CheckUnique` finds a conflict about the name. -/
def ClassRefused (env : CatalogEnv) (t : TxnId) (s : DatabaseCatalog) (kind : RelKind)
    (name : List Byte) (namespaceOid : Oid) : Prop :=
  s.rowExists env .namespaceNspoid (buildNamespaceOidChunk namespaceOid) = false ∨
    s.conflictFound env t .classRelname (s.nextClassChunk kind name namespaceOid)
      (s.nextTid env .classes) = true

/-- What is looked up before the first index entry is made refuses the call. -/
def Refused (env : CatalogEnv) (t : TxnId) (s : DatabaseCatalog) : Creation → Prop
  | .table name namespaceOid _ => ClassRefused env t s .regularTable name namespaceOid
  | .index name relOid namespaceOid _ =>
      s.rowExists env .classReloid (buildClassOidChunk relOid) = false ∨
        ClassRefused env t s .index name namespaceOid
  | .constraint props =>
      s.conflictFound env t .constraintConoid
        (buildConstraintChunk (.ofNat s.nextConstraintOid) props)
        (s.nextTid env .constraints)

theorem classRefused_iff {kind : RelKind} {name : List Byte} {namespaceOid : Oid}
    (henc : s.Encoded env) (hname : env.Encodable name) :
    ClassRefused env t s kind name namespaceOid ↔ s.ClassTaken env t kind name namespaceOid := by
  have hcode :
      env.Codes .classRelname
      (env.columns .classRelname (s.nextClassChunk kind name namespaceOid)) :=
    CatalogEnv.codes_of_named rfl (namedBy_classChunk hname)
  unfold ClassRefused ClassTaken
  rw [conflictFound_eq henc hcode]

/-- With names that the encoder takes `CheckUnique` finds what is taken. -/
theorem refused_iff_taken {c : Creation} (henc : s.Encoded env)
    (hnames : ∀ name ∈ c.names, env.Encodable name) :
    c.Refused env t s ↔ c.Taken env t s := by
  cases c with
  | table name namespaceOid schema => exact classRefused_iff henc (hnames name List.mem_cons_self)
  | index name relOid namespaceOid schema =>
      exact or_congr_right (classRefused_iff henc (hnames name List.mem_cons_self))
  | constraint props =>
      have hcode : env.Codes .constraintConoid
          (env.columns .constraintConoid
            (buildConstraintChunk (.ofNat s.nextConstraintOid) props)) :=
        CatalogEnv.codes_of_named rfl
          (namedBy_constraintChunk (hnames props.name List.mem_cons_self))
      exact Bool.eq_iff_iff.mp (conflictFound_eq henc hcode _)

end Creation

section Calls

variable {raced : Option Nat} {message : String}

/-- `CreateIndex` with the lock and the table. -/
theorem createIndex_class {name : List Byte} {relOid namespaceOid : Oid} {schema : IndexSchema}
    (hlock : s.locks t raced = true)
    (hexists : s.rowExists env .classReloid (buildClassOidChunk relOid) = true) :
    ∃ r : DatabaseCatalog, r.db = s.db ∧ r.fsm = s.fsm ∧ r.indexes = s.indexes ∧
      r.nextClassOid = s.nextClassOid ∧
      r.locks t none = true ∧
      createIndex env t raced name relOid namespaceOid schema s = (do
        let classOid ← createIndexClass env t none name namespaceOid schema.columns
        let _ ← createIndexEntry env t classOid relOid schema
        return classOid : CatalogM Oid) r := by
  obtain ⟨lock, rollback, htry, howned⟩ := tryLock_eq s t raced
  let r : DatabaseCatalog := { s with writeLock := lock, rollback := rollback }
  have hcheck : existsTable env relOid r = .ok () r := by
    rw [existsTable_eq]
    exact if_pos hexists
  refine ⟨r, rfl, rfl, rfl, rfl, locks_of_owned (howned hlock), ?_⟩
  unfold createIndex
  rw [run_bind_ok htry, hlock, if_pos rfl, run_bind_ok hcheck]

theorem classTaken_of_same {r : DatabaseCatalog} (hdb : r.db = s.db)
    (hindexes : r.indexes = s.indexes)
    (hnext : r.nextClassOid = s.nextClassOid) {kind : RelKind} {name : List Byte}
    {namespaceOid : Oid} :
    r.ClassTaken env t kind name namespaceOid ↔ s.ClassTaken env t kind name namespaceOid := by
  have hsame : ∀ index, SameThrough t s r index := fun _ => sameThrough_of_eq hdb hindexes
  unfold ClassTaken nextClassChunk
  rw [(hsame _).rowExists, (hsame _).taken, hnext]

/-- A call that fails has got the lock. -/
theorem locks_of_error {c : Creation} (h : c.run env t raced s = .error message s') :
    s.locks t raced = true := by
  obtain ⟨lock, rollback, htry, -⟩ := tryLock_eq s t raced
  cases hlock : s.locks t raced with
  | true => rfl
  | false =>
      rw [hlock] at htry
      cases c with
      | table name namespaceOid schema =>
          change createClass env t .regularTable raced name namespaceOid schema s = _ at h
          unfold createClass at h
          rw [run_bind_ok htry] at h
          cases h
      | index name relOid namespaceOid schema =>
          change createIndex env t raced name relOid namespaceOid schema s = _ at h
          unfold createIndex at h
          rw [run_bind_ok htry] at h
          cases h
      | constraint props =>
          change createConstraint env t raced props s = _ at h
          unfold createConstraint at h
          rw [run_bind_ok htry] at h
          cases h

/-- A refused call fails unnoticed. -/
theorem Creation.run_refused {c : Creation} (hs : SoundFor t s) (hlock : s.locks t raced = true)
    (h : c.Taken env t s) :
    ∃ message s', c.run env t raced s = .error message s' ∧ Unnoticed env s s' := by
  obtain ⟨lock, rollback, htry, howned⟩ := tryLock_eq s t raced
  let r : DatabaseCatalog := { s with writeLock := lock, rollback := rollback }
  cases c with
  | table name namespaceOid schema => exact createClass_refused hs hlock h
  | index name relOid namespaceOid schema =>
      cases hexists : s.rowExists env .classReloid (buildClassOidChunk relOid) with
      | false =>
          have hcheck : existsTable env relOid r = .error "Namespace does not exist" r := by
            rw [existsTable_eq]
            refine if_neg ?_
            show ¬ s.rowExists env .classReloid (buildClassOidChunk relOid) = true
            simp [hexists]
          refine ⟨"Namespace does not exist", r, ?_,
            unnoticed_of_sameThrough (t := t) fun _ => sameThrough_of_eq rfl rfl⟩
          · show createIndex env t raced name relOid namespaceOid schema s = _
            unfold createIndex
            rw [run_bind_ok htry, hlock, if_pos rfl, run_bind_error hcheck]
      | true =>
          obtain ⟨r, hdb, hfsm, hindexes, hnext, howned, hrun⟩ :=
            @createIndex_class env t s raced name relOid namespaceOid schema hlock hexists
          have hr : SoundFor t r := hs.of_same hdb hfsm hindexes
          have hrefused : r.ClassTaken env t .index name namespaceOid :=
            (classTaken_of_same hdb hindexes hnext).mpr (h.resolve_left (by simp [hexists]))
          obtain ⟨message, s', herror, hun⟩ :=
            @createClass_refused env t r .index none name namespaceOid schema.columns hr
              howned hrefused
          refine ⟨message, s', ?_, hun.trans_same hdb hindexes⟩
          show createIndex env t raced name relOid namespaceOid schema s = _
          rw [hrun]
          exact run_bind_error herror
  | constraint props =>
      let r' : DatabaseCatalog := { r with nextConstraintOid := r.nextConstraintOid + 1 }
      have hr : SoundFor t r' := hs.of_same rfl rfl rfl
      have htaken :
          r'.taken env t .constraintConoid
          (buildConstraintChunk (.ofNat s.nextConstraintOid) props) = true :=
        h
      have htake : takeConstraintOid r = .ok (.ofNat s.nextConstraintOid) r' := rfl
      have hentry : createConstraintEntry env t (.ofNat s.nextConstraintOid) props r' =
          .error _
            (r'.entered env t .constraints (buildConstraintChunk (.ofNat s.nextConstraintOid) props)
              []) :=
        run_bind_error (insertEntry_first hr.1.wellFormed (separate_constraintSteps props)
          (congrArg (! ·) htaken))
      have hun :=
        (@unnoticed_entered_nil env t r' (buildConstraintChunk (.ofNat s.nextConstraintOid) props)
        .constraints hr.1.wellFormed).trans_same (s := s) rfl rfl
      refine ⟨"Failed to insert to conoid index", _, ?_, hun⟩
      show createConstraint env t raced props s = _
      unfold createConstraint
      rw [run_bind_ok htry, hlock, if_pos rfl, run_bind_ok htake]
      exact hentry

/-- Any other call leaves an index entry. -/
theorem Creation.run_left {c : Creation} (hs : SoundFor t s) (hlock : s.locks t raced = true)
    (h : ¬ c.Taken env t s) :
    ∃ index key tid, LeftBehind s (after (c.run env t raced) s) index key tid := by
  cases c with
  | table name namespaceOid schema =>
      obtain ⟨key, tid, hleft⟩ := createClass_left hs hlock h
      exact ⟨.classRelname, key, tid, hleft⟩
  | index name relOid namespaceOid schema =>
      obtain ⟨hexists, hclass⟩ := not_or.mp h
      obtain ⟨r, hdb, hfsm, hindexes, hnext, howned, hrun⟩ :=
        @createIndex_class env t s raced name relOid namespaceOid schema hlock
          (by simpa using hexists)
      have hr : SoundFor t r := hs.of_same hdb hfsm hindexes
      obtain ⟨key, tid, hleft⟩ :=
        @createClass_left env t r .index none name namespaceOid schema.columns hr howned
        fun hrefused => hclass ((classTaken_of_same hdb hindexes hnext).mp hrefused)
      refine ⟨.classRelname, key, tid, LeftBehind.of_same ?_ hindexes⟩
      show LeftBehind r (after (createIndex env t raced name relOid namespaceOid schema) s) _ _ _
      rw [after_congr hrun]
      refine hleft.bind (ends_after (kept_soundFor.createClass _ _ trivial _ fun _ _ => trivial) hr)
        fun classOid s₁ => ?_
      exact (kept_growsFrom.createIndexEntry classOid relOid schema).bind fun _ =>
        Ends.pure fun _ hs => hs
  | constraint props =>
      obtain ⟨lock, rollback, htry, -⟩ := tryLock_eq s t raced
      let r : DatabaseCatalog :=
        { s with writeLock := lock, rollback := rollback, nextConstraintOid :=
          s.nextConstraintOid + 1 }
      have hr : SoundFor t r := hs.of_same rfl rfl rfl
      have hrun : createConstraint env t raced props s =
          createConstraintEntry env t (.ofNat s.nextConstraintOid) props r := by
        unfold createConstraint
        rw [run_bind_ok htry, hlock, if_pos rfl]
        rfl
      have hpass :
          (EntryStep.insertUnique .constraintConoid "Failed to insert to conoid index").passes
            env t r (buildConstraintChunk (.ofNat s.nextConstraintOid) props) = true := by
        show (! s.taken env t .constraintConoid
          (buildConstraintChunk (.ofNat s.nextConstraintOid) props)) = true
        rw [Bool.not_eq_true', ← Bool.not_eq_true]
        exact h
      have hleft := insertEntry_first_passes hr.1.wellFormed (separate_constraintSteps props)
        (stepsOf_constraintSteps props) hpass rfl
      refine ⟨.constraintConoid,
        env.columns .constraintConoid (buildConstraintChunk (.ofNat s.nextConstraintOid) props),
        r.nextTid env .constraints, LeftBehind.of_same ?_ (rfl : r.indexes = s.indexes)⟩
      · show LeftBehind r (after (createConstraint env t raced props) s) _ _ _
        rw [after_congr hrun]
        exact hleft.bind (ends_after (kept_soundFor.entry _ _ _ (separate_constraintSteps props)
          (stepsOf_constraintSteps props) (namedBy_constraintChunk trivial)) hr) fun _ _ =>
            Ends.pure fun _ hs => hs

/-- **A failed call goes unnoticed exactly when it was refused**: when what it looks up
before its first index entry made it fail. Any later failure leaves an index entry of a
tuple that is not deleted. Names are such that the encoder takes them. -/
theorem failed_call_unnoticed {c : Creation} (hr : ReachableEncoded env s)
    (hctl : (s.db.txns t).ctl = .active) (hnames : ∀ name ∈ c.names, env.Encodable name)
    (hfail : c.run env t raced s = .error message s') :
    Unnoticed env s s' ↔ c.Refused env t s := by
  have hs : SoundFor t s := ⟨sound_reachable hr.reachable, hctl⟩
  have hlock := locks_of_error hfail
  rw [Creation.refused_iff_taken (encoded_reachable hr) hnames]
  constructor
  · intro hun
    by_contra hrefused
    obtain ⟨index, key, tid, hleft⟩ := @Creation.run_left env t s raced c hs hlock hrefused
    unfold after at hleft
    rw [hfail] at hleft
    exact hleft.noticed hun
  · intro hrefused
    obtain ⟨message', s'', hrun, hun⟩ := @Creation.run_refused env t s raced c hs hlock hrefused
    rw [hfail] at hrun
    obtain ⟨-, rfl⟩ := EStateM.Result.error.inj hrun
    exact hun

/-- The call fails. -/
def Fails (r : EStateM.Result String DatabaseCatalog Oid) : Bool :=
  match r with
  | .ok _ _ => false
  | .error _ _ => true

theorem error_of_fails {r : EStateM.Result String DatabaseCatalog Oid} (h : Fails r = true) :
    ∃ message s', r = .error message s' := by
  cases r with
  | ok oid s' => exact absurd h (by simp [Fails])
  | error message s' => exact ⟨message, s', rfl⟩

/-- ASCII names of at most 12 bytes without a zero. -/
theorem encodable_plain {name : List Byte}
    (h : (name.length ≤ inlineSizeCap && CatalogEnv.plain.accepts name && !name.contains (byte 0)) =
      true) :
    CatalogEnv.plain.Encodable name := by
  simp only [Bool.and_eq_true, decide_eq_true_eq, Bool.not_eq_true', List.contains_eq_mem,
    decide_eq_false_iff_not] at h
  obtain ⟨⟨hlen, haccepts⟩, hnul⟩ := h
  exact CatalogEnv.encodable_of_inline hlen ⟨haccepts, hnul, lt_of_le_of_lt hlen (by decide)⟩

theorem withNamespace_encoded : ReachableEncoded .plain withNamespace := by
  refine .step (.createNamespace 0 none [byte 97]) (.step (.begin 0) (.init fresh_init) rfl ?_) rfl
    ?_
  · exact fun name h => absurd h List.not_mem_nil
  · exact List.forall_mem_singleton.mpr (encodable_plain (by decide))

/-- Transaction 0 has made a table with one column. -/
def withTable : DatabaseCatalog :=
  withNamespace.call .plain (.createTable 0 none [byte 98] 1 [⟨[byte 99], .integer, false⟩])

theorem withTable_encoded : ReachableEncoded .plain withTable := by
  refine .step (.createTable 0 none [byte 98] 1 [⟨[byte 99], .integer, false⟩])
    withNamespace_encoded rfl ?_
  exact List.forall_mem_cons.mpr ⟨encodable_plain (by decide),
    List.forall_mem_singleton.mpr (encodable_plain (by decide))⟩

/-- A second table of its name. -/
theorem failed_call_unnoticed_nameTaken : ∃ message s',
    (Creation.table [byte 98] 1 [⟨[byte 99], .integer, false⟩]).run .plain 0 none withTable =
      .error message s' ∧
      Unnoticed .plain withTable s' := by
  let c : Creation := .table [byte 98] 1 [⟨[byte 99], .integer, false⟩]
  obtain ⟨message, s', hfail⟩ :=
    error_of_fails (r := c.run .plain 0 none withTable) (by decide +kernel)
  have hnames : ∀ name ∈ c.names, CatalogEnv.plain.Encodable name :=
    List.forall_mem_cons.mpr ⟨encodable_plain (by decide),
      List.forall_mem_singleton.mpr (encodable_plain (by decide))⟩
  refine ⟨message, s', hfail,
    (failed_call_unnoticed withTable_encoded rfl hnames hfail).mpr (.inr ?_)⟩
  decide +kernel

/-- A table with two columns of one name. -/
theorem failed_call_noticed :
    ¬ ∀ (env : CatalogEnv) (s s' : DatabaseCatalog) (t : TxnId) (raced : Option Nat) (c : Creation)
      (message : String), ReachableEncoded env s → (s.db.txns t).ctl = .active →
      (∀ name ∈ c.names, env.Encodable name) → c.run env t raced s = .error message s' →
        Unnoticed env s s' := by
  intro hall
  let c : Creation :=
    .table [byte 98] 1 [⟨[byte 99], .integer, false⟩, ⟨[byte 99], .integer, false⟩]
  have hnames : ∀ name ∈ c.names, CatalogEnv.plain.Encodable name :=
    List.forall_mem_cons.mpr ⟨encodable_plain (by decide), List.forall_mem_cons.mpr
      ⟨encodable_plain (by decide), List.forall_mem_singleton.mpr (encodable_plain (by decide))⟩⟩
  obtain ⟨message, s', hfail⟩ := error_of_fails (r := c.run .plain 0 none withNamespace) (by decide)
  obtain ⟨index, key, tid, hleft⟩ := @Creation.run_left .plain 0 withNamespace none c
    ⟨sound_reachable withNamespace_reachable, rfl⟩ (by decide) (by
      refine not_or.mpr ⟨by decide, by decide⟩)
  unfold after at hleft
  rw [hfail] at hleft
  exact hleft.noticed (hall .plain withNamespace s' 0 none c message withNamespace_encoded
    rfl hnames hfail)

end Calls

end DatabaseCatalog

end Db7
