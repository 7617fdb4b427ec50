import Db7.Catalog.FailedCalls

/-!
# What a successful call stands for

A call that creates an object returns its oid after it has inserted all the rows of the
object. Without the lock `CreateTable`, `CreateIndex` and `CreateConstraint` return
`INVALID_OID` with nothing inserted and no failure, and after `2 ^ 32` calls the oids
start again; otherwise success means what it says (`created_iff`).

* **rows** (`Inserted`): a row of this call with its index entries, which later parts of
  the call keep (`Inserted.later`);
* **objects** (`Created`): the rows that each kind of object has.
-/

namespace Db7

open Lib Function DataChunkBuilder

namespace DatabaseCatalog

variable {env : CatalogEnv} {t : TxnId} {s s' s₀ s₁ : DatabaseCatalog} {chunk : DataChunk}
  {tbl : CatalogTable} {steps : List EntryStep} {tid : TupleId} {oid : Oid}

/-! ## Rows -/

/-- A tuple that `t` has filled with the chunk between the two states, and that all the
indexes of its table name. -/
structure Inserted (env : CatalogEnv) (t : TxnId) (s s' : DatabaseCatalog) (tbl : CatalogTable)
    (chunk : DataChunk) (tid : TupleId) : Prop where
  notBefore : ¬ s.Allocated tid tbl.oid
  allocated : s'.Allocated tid tbl.oid
  head : s'.db.newest (tid.slot tbl.oid) =
    some (.initializeInsert (s'.db.txns t).finish (tid.slot tbl.oid))
  row : ∀ c ∈ tbl.schema.columns, ∀ v, chunk.get c = some v →
    s'.db.rows (tid.slot tbl.oid) (tbl.schema.position c) = v
  entries : ∀ index :
    IndexOid, index.heapTblId = tbl.oid → tid ∈ (s'.indexes index).get (env.columns index chunk)

/-- An entry whose steps write all the indexes of its table. -/
theorem inserted_entered (hw : s.WellFormed)
    (hall : ∀ index : IndexOid, index.heapTblId = tbl.oid → index ∈ written steps) :
    Inserted env t s (s.entered env t tbl chunk steps) tbl chunk (s.nextTid env tbl) where
  notBefore h := Nat.lt_irrefl _ h
  allocated := by
    unfold Allocated
    rw [db_entered, Db.count_insertTuple, if_pos ⟨rfl, rfl⟩]
    exact Nat.lt_succ_self _
  head := by
    rw [newest_entered hw, if_pos rfl, (@sameTimes_entered env t s chunk tbl steps).2]
  row c hc v hv := by
    have hschema : s.db.schema tbl.oid = tbl.schema := hw.schema tbl
    have hrow : (s.entered env t tbl chunk steps).db.rows ((s.nextTid env tbl).slot tbl.oid) =
        Db7.insertRow tbl.schema chunk (s.db.rows ((s.nextTid env tbl).slot tbl.oid)) := by
      rw [db_entered, ← hschema]
      exact update_self ..
    rw [hrow, insertRow_apply _ hc, hv]
    rfl
  entries index hindex := mem_entered.mpr (.inl ⟨hall index hindex, rfl, rfl⟩)

/-- What the call does before and after the row. -/
theorem Inserted.later (h : Inserted env t s₀ s₁ tbl chunk tid) (hbefore : GrowsFrom t s s₀)
    (hafter : GrowsFrom t s₁ s') : Inserted env t s s' tbl chunk tid where
  notBefore halloc := h.notBefore (hbefore.grows.allocated halloc)
  allocated := hafter.grows.allocated h.allocated
  head := by
    rw [hafter.grows.newest tid tbl.oid h.allocated, hafter.times.2]
    exact h.head
  row c hc v hv := by
    rw [hafter.grows.rows tid tbl.oid h.allocated]
    exact h.row c hc v hv
  entries index hindex := hafter.grows.entries index _ tid (h.entries index hindex)

/-- An entry that succeeds has inserted its row. -/
theorem inserted_insertEntry (hs : SoundFor t s) (hsep : Separate steps)
    (hsteps : StepsOf tbl steps)
    (hall : ∀ index : IndexOid, index.heapTblId = tbl.oid → index ∈ written steps)
    (h : insertEntry env t tbl chunk steps s = .ok () s') :
    (∃ tid, Inserted env t s s' tbl chunk tid) ∧ GrowsFrom t s s' := by
  obtain ⟨rfl, hpass⟩ := insertEntry_ok hs.1.wellFormed hsep h
  exact ⟨⟨_, inserted_entered hs.1.wellFormed hall⟩, (GrowsFrom.refl hs).entered hsteps hpass⟩

section Written

attribute [local simp] written EntryStep.writes

theorem written_namespaceSteps (index : IndexOid)
    (h : index.heapTblId = CatalogTable.namespaces.oid) :
    index ∈ written namespaceSteps := by
  cases index <;> simp_all [namespaceSteps, IndexOid.heapTblId, CatalogTable.oid]

theorem written_columnSteps (index : IndexOid) (h : index.heapTblId = CatalogTable.attributes.oid) :
    index ∈ written columnSteps := by
  cases index <;> simp_all [columnSteps, IndexOid.heapTblId, CatalogTable.oid]

theorem written_tableSteps (index : IndexOid) (h : index.heapTblId = CatalogTable.classes.oid) :
    index ∈ written tableSteps := by
  cases index <;> simp_all [tableSteps, IndexOid.heapTblId, CatalogTable.oid]

theorem written_indexSteps (index : IndexOid) (h : index.heapTblId = CatalogTable.indexes.oid) :
    index ∈ written indexSteps := by
  cases index <;> simp_all [indexSteps, IndexOid.heapTblId, CatalogTable.oid]

theorem written_constraintSteps (props : ConstraintProps) (index : IndexOid)
    (h : index.heapTblId = CatalogTable.constraints.oid) :
    index ∈ written (constraintSteps props) := by
  cases index <;> simp_all [constraintSteps, IndexOid.heapTblId, CatalogTable.oid]

end Written

/-! ## Objects -/

/-- The class row, and one attribute row for each column of the schema. -/
structure ClassInserted (env : CatalogEnv) (t : TxnId) (s s' : DatabaseCatalog)
    (kind : RelKind) (oid : Oid)
    (name : List Byte) (namespaceOid : Oid) (schema : SchemaColumns) : Prop where
  row : ∃ tid, Inserted env t s s' .classes (buildClassChunk oid name namespaceOid kind name) tid
  columns : ∃ tids : List TupleId, tids.Nodup ∧ List.Forall₂ (fun column tid =>
    ∃ attrOid, Inserted env t s s' .attributes (columnChunk attrOid oid column) tid) schema tids

/-- The calls that create an object. -/
inductive CreateCall
  | namespace (name : List Byte)
  | object (c : Creation)

namespace CreateCall

/-- The call itself. -/
def run (env : CatalogEnv) (t : TxnId) (raced : Option Nat) : CreateCall → CatalogM Oid
  | .namespace name => createNamespace env t raced name
  | .object c => c.run env t raced

/-- The counter that gives the oid. -/
def counter (s : DatabaseCatalog) : CreateCall → Nat
  | .namespace _ => s.nextNamespaceOid
  | .object (.table ..) | .object (.index ..) => s.nextClassOid
  | .object (.constraint _) => s.nextConstraintOid

/-- All the rows that the object stands for have been inserted. -/
def Created (env : CatalogEnv) (t : TxnId) (s s' : DatabaseCatalog) (oid : Oid) : CreateCall → Prop
  | .namespace name => ∃ tid, Inserted env t s s' .namespaces (buildNamespaceChunk oid name) tid
  | .object (.table name namespaceOid schema) => ClassInserted env t s s' .regularTable oid name
      namespaceOid schema
  | .object (.index name relOid namespaceOid schema) =>
      ClassInserted env t s s' .index oid name namespaceOid schema.columns ∧
        ∃ tid, Inserted env t s s' .indexes (indexChunk oid relOid schema) tid
  | .object (.constraint props) => ∃ tid,
      Inserted env t s s' .constraints (buildConstraintChunk oid props) tid

end CreateCall

/-- None of the oids that the counter has given, from 1 on. -/
def FreshOid (counter : Nat) (oid : Oid) : Prop := ∀ k, 1 ≤ k → k < counter → UInt32.ofNat k ≠ oid

theorem createColumns_inserted {relOid : Oid} {columns : SchemaColumns} (hs : SoundFor t s)
    (h : createColumns env t relOid columns s = .ok () s') :
    (∃ tids : List TupleId, tids.Nodup ∧ List.Forall₂ (fun column tid =>
      ∃ attrOid, Inserted env t s s' .attributes (columnChunk attrOid relOid column) tid)
        columns tids) ∧
      GrowsFrom t s s' := by
  induction columns generalizing s with
  | nil =>
      obtain ⟨-, rfl⟩ := EStateM.Result.ok.inj h
      exact ⟨⟨[], List.nodup_nil, .nil⟩, .refl hs⟩
  | cons column columns ih =>
      obtain ⟨_, s₁, hentry, hrest⟩ := run_bind_eq_ok.mp h
      obtain ⟨attrOid, s₂, htake, hentry⟩ := run_bind_eq_ok.mp hentry
      obtain ⟨_, s₃, hinsert, hpure⟩ := run_bind_eq_ok.mp hentry
      obtain ⟨-, rfl⟩ := EStateM.Result.ok.inj hpure
      obtain ⟨-, rfl⟩ := EStateM.Result.ok.inj htake
      have hbefore : GrowsFrom t s { s with nextAttributeOid := s.nextAttributeOid + 1 } :=
        (GrowsFrom.refl hs).of_same rfl rfl rfl
      obtain ⟨⟨tid, hrow⟩, hgrows⟩ :=
        inserted_insertEntry hbefore.sound separate_columnSteps stepsOf_columnSteps
        written_columnSteps hinsert
      obtain ⟨⟨tids, hnodup, hrows⟩, hrest⟩ := ih hgrows.sound hrest
      refine ⟨⟨tid :: tids, List.nodup_cons.mpr ⟨fun hmem => ?_, hnodup⟩, .cons ?_ ?_⟩, ?_⟩
      · -- the tuple was filled before those of the other columns
        obtain ⟨column', hmem', attrOid', hrow'⟩ : ∃ column' ∈ columns, ∃ attrOid',
            Inserted env t s₃ s' .attributes (columnChunk attrOid' relOid column') tid := by
          obtain ⟨i, hi, htid⟩ := List.mem_iff_getElem.mp hmem
          have hi' : i < columns.length := hrows.length_eq ▸ hi
          have hat := (List.forall₂_iff_get.mp hrows).2 i hi' hi
          rw [List.get_eq_getElem, List.get_eq_getElem, htid] at hat
          exact ⟨_, List.getElem_mem hi', hat⟩
        exact hrow'.notBefore hrow.allocated
      · exact ⟨attrOid, hrow.later hbefore hrest⟩
      · refine hrows.imp fun column' tid' hrow' => ?_
        obtain ⟨attrOid', hrow'⟩ := hrow'
        exact ⟨attrOid', hrow'.later (hbefore.trans hgrows) (.refl hrest.sound)⟩
      · exact (hbefore.trans hgrows).trans hrest

/-- A class whose creation succeeds with the lock. -/
theorem createClass_inserted {kind : RelKind} {raced : Option Nat} {name : List Byte}
    {namespaceOid : Oid}
    {schema : SchemaColumns} (hs : SoundFor t s) (hlock : s.locks t raced = true)
    (h : createClass env t kind raced name namespaceOid schema s = .ok oid s') :
    oid = .ofNat s.nextClassOid ∧ ClassInserted env t s s' kind oid name namespaceOid schema ∧
      GrowsFrom t s s' := by
  have hexists : s.rowExists env .namespaceNspoid (buildNamespaceOidChunk namespaceOid) = true := by
    by_contra hmissing
    obtain ⟨message, s'', herror, -⟩ :=
      @createClass_refused env t s kind raced name namespaceOid schema hs hlock
      (.inl (by simpa using hmissing))
    rw [h] at herror
    exact absurd herror (by simp)
  obtain ⟨r, hdb, hfsm, hindexes, hrun⟩ :=
    @createClass_row env t s kind raced name namespaceOid schema hlock hexists
  have hr : GrowsFrom t s r := (GrowsFrom.refl hs).of_same hdb hfsm hindexes
  rw [hrun] at h
  obtain ⟨_, s₁, hentry, h⟩ := run_bind_eq_ok.mp h
  obtain ⟨_, s₂, hcolumns, h⟩ := run_bind_eq_ok.mp h
  obtain ⟨rfl, rfl⟩ := EStateM.Result.ok.inj h
  obtain ⟨_, s₃, hinsert, hpure⟩ := run_bind_eq_ok.mp hentry
  obtain ⟨rfl, rfl⟩ := EStateM.Result.ok.inj hpure
  obtain ⟨⟨tid, hrow⟩, hentered⟩ :=
    inserted_insertEntry hr.sound separate_tableSteps stepsOf_tableSteps
    written_tableSteps hinsert
  obtain ⟨⟨tids, hnodup, hrows⟩, hrest⟩ := createColumns_inserted hentered.sound hcolumns
  have hbefore := hr.trans hentered
  refine ⟨rfl, ⟨⟨tid, hrow.later hr hrest⟩, tids, hnodup, ?_⟩, hbefore.trans hrest⟩
  refine hrows.imp fun column tid' hrow' => ?_
  obtain ⟨attrOid, hrow'⟩ := hrow'
  exact ⟨attrOid, hrow'.later hbefore (.refl hrest.sound)⟩

theorem ClassInserted.later {kind : RelKind} {name : List Byte} {namespaceOid : Oid}
    {schema : SchemaColumns}
    (h : ClassInserted env t s₀ s₁ kind oid name namespaceOid schema) (hbefore : GrowsFrom t s s₀)
    (hafter : GrowsFrom t s₁ s') : ClassInserted env t s s' kind oid name namespaceOid schema := by
  obtain ⟨⟨tid, hrow⟩, tids, hnodup, hrows⟩ := h
  refine ⟨⟨tid, hrow.later hbefore hafter⟩, tids, hnodup, hrows.imp fun column tid' hrow' => ?_⟩
  obtain ⟨attrOid, hrow'⟩ := hrow'
  exact ⟨attrOid, hrow'.later hbefore hafter⟩

/-- A call that succeeds with the lock has inserted the rows of its object, under the
next oid. -/
theorem created_of_locks {c : CreateCall} {raced : Option Nat} (hs : SoundFor t s)
    (hlock : s.locks t raced = true) (h : c.run env t raced s = .ok oid s') :
    oid = .ofNat (c.counter s) ∧ c.Created env t s s' oid := by
  obtain ⟨lock, rollback, htry, howned⟩ := tryLock_eq s t raced
  have hlocked : GrowsFrom t s { s with writeLock := lock, rollback := rollback } :=
    (GrowsFrom.refl hs).of_same rfl rfl rfl
  cases c with
  | «namespace» name =>
      change createNamespace env t raced name s = _ at h
      unfold createNamespace at h
      rw [run_bind_ok htry, hlock, if_pos rfl] at h
      obtain ⟨_, s₁, htake, h⟩ := run_bind_eq_ok.mp h
      obtain ⟨rfl, rfl⟩ := EStateM.Result.ok.inj htake
      obtain ⟨_, s₂, hinsert, hpure⟩ := run_bind_eq_ok.mp h
      obtain ⟨rfl, rfl⟩ := EStateM.Result.ok.inj hpure
      have hbefore : GrowsFrom t s
          { s with writeLock := lock, rollback := rollback, nextNamespaceOid :=
            s.nextNamespaceOid + 1 } :=
        hlocked.of_same rfl rfl rfl
      obtain ⟨⟨tid, hrow⟩, hgrows⟩ := inserted_insertEntry hbefore.sound separate_namespaceSteps
        stepsOf_namespaceSteps written_namespaceSteps hinsert
      exact ⟨rfl, tid, hrow.later hbefore (.refl hgrows.sound)⟩
  | object c =>
      cases c with
      | table name namespaceOid schema =>
          obtain ⟨hoid, hclass, -⟩ := createClass_inserted hs hlock h
          exact ⟨hoid, hclass⟩
      | index name relOid namespaceOid schema =>
          change createIndex env t raced name relOid namespaceOid schema s = _ at h
          unfold createIndex at h
          rw [run_bind_ok htry, hlock, if_pos rfl] at h
          obtain ⟨_, s₁, hcheck, h⟩ := run_bind_eq_ok.mp h
          obtain ⟨classOid, s₂, hclass, h⟩ := run_bind_eq_ok.mp h
          obtain ⟨_, s₃, hindex, h⟩ := run_bind_eq_ok.mp h
          obtain ⟨rfl, rfl⟩ := EStateM.Result.ok.inj h
          obtain ⟨_, s₄, hinsert, hpure⟩ := run_bind_eq_ok.mp hindex
          obtain ⟨-, rfl⟩ := EStateM.Result.ok.inj hpure
          have hsame :=
            @ends_existsTable env (fun r => r = { s with writeLock := lock, rollback := rollback })
            relOid _ rfl
          rw [hcheck] at hsame
          subst hsame
          obtain ⟨hoid, hrows, hgrows⟩ :=
            createClass_inserted hlocked.sound (locks_of_owned (howned hlock)) hclass
          obtain ⟨⟨tid, hrow⟩, hentered⟩ := inserted_insertEntry hgrows.sound separate_indexSteps
            stepsOf_indexSteps written_indexSteps hinsert
          exact ⟨hoid, hrows.later hlocked hentered, tid,
            hrow.later (hlocked.trans hgrows) (.refl hentered.sound)⟩
      | constraint props =>
          change createConstraint env t raced props s = _ at h
          unfold createConstraint at h
          rw [run_bind_ok htry, hlock, if_pos rfl] at h
          obtain ⟨_, s₁, htake, h⟩ := run_bind_eq_ok.mp h
          obtain ⟨rfl, rfl⟩ := EStateM.Result.ok.inj htake
          obtain ⟨_, s₂, hinsert, hpure⟩ := run_bind_eq_ok.mp h
          obtain ⟨rfl, rfl⟩ := EStateM.Result.ok.inj hpure
          have hbefore : GrowsFrom t s
              { s with writeLock := lock, rollback := rollback, nextConstraintOid :=
                s.nextConstraintOid + 1 } :=
            hlocked.of_same rfl rfl rfl
          obtain ⟨⟨tid, hrow⟩, hgrows⟩ :=
            inserted_insertEntry hbefore.sound (separate_constraintSteps props)
            (stepsOf_constraintSteps props) (written_constraintSteps props) hinsert
          exact ⟨rfl, tid, hrow.later hbefore (.refl hgrows.sound)⟩

/-- Without the lock a call that succeeds returns `INVALID_OID`. -/
theorem invalidOid_of_not_locks {c : CreateCall} {raced : Option Nat}
    (hlock : s.locks t raced = false)
    (h : c.run env t raced s = .ok oid s') : oid = invalidOid := by
  obtain ⟨lock, rollback, htry, -⟩ := tryLock_eq s t raced
  rw [hlock] at htry
  cases c with
  | «namespace» name =>
      change createNamespace env t raced name s = _ at h
      unfold createNamespace at h
      rw [run_bind_ok htry] at h
      cases h
  | object c =>
      cases c with
      | table name namespaceOid schema =>
          change createClass env t .regularTable raced name namespaceOid schema s = _ at h
          unfold createClass at h
          rw [run_bind_ok htry] at h
          exact (EStateM.Result.ok.inj h).1.symm
      | index name relOid namespaceOid schema =>
          change createIndex env t raced name relOid namespaceOid schema s = _ at h
          unfold createIndex at h
          rw [run_bind_ok htry] at h
          exact (EStateM.Result.ok.inj h).1.symm
      | constraint props =>
          change createConstraint env t raced props s = _ at h
          unfold createConstraint at h
          rw [run_bind_ok htry] at h
          exact (EStateM.Result.ok.inj h).1.symm

/-! ## Counters -/

/-- The counters start at 1. -/
structure Counted (s : DatabaseCatalog) : Prop where
  namespaces : 1 ≤ s.nextNamespaceOid
  classes : 1 ≤ s.nextClassOid
  constraints : 1 ≤ s.nextConstraintOid

theorem Counted.of_same (h : Counted s) (hns : s.nextNamespaceOid ≤ s'.nextNamespaceOid)
    (hclass : s.nextClassOid ≤ s'.nextClassOid)
    (hcon : s.nextConstraintOid ≤ s'.nextConstraintOid) : Counted s' :=
  ⟨Nat.le_trans h.namespaces hns, Nat.le_trans h.classes hclass, Nat.le_trans h.constraints hcon⟩

theorem counted_entered (h : Counted s) : Counted (s.entered env t tbl chunk steps) := by
  obtain ⟨indexes, heq⟩ := @entered_eq env t s chunk tbl steps
  rw [heq]
  exact h.of_same (Nat.le_refl _) (Nat.le_refl _) (Nat.le_refl _)

theorem kept_counted : Kept env t (fun _ => True) (fun s => SoundFor t s ∧ Counted s) where
  lock _ _ _ hs :=
    ⟨hs.1.of_same rfl rfl rfl, hs.2.of_same (Nat.le_refl _) (Nat.le_refl _) (Nat.le_refl _)⟩
  namespaceOid _ hs :=
    ⟨hs.1.of_same rfl rfl rfl, hs.2.of_same (Nat.le_succ _) (Nat.le_refl _) (Nat.le_refl _)⟩
  classOid _ hs :=
    ⟨hs.1.of_same rfl rfl rfl, hs.2.of_same (Nat.le_refl _) (Nat.le_succ _) (Nat.le_refl _)⟩
  attributeOid _ hs :=
    ⟨hs.1.of_same rfl rfl rfl, hs.2.of_same (Nat.le_refl _) (Nat.le_refl _) (Nat.le_refl _)⟩
  constraintOid _ hs :=
    ⟨hs.1.of_same rfl rfl rfl, hs.2.of_same (Nat.le_refl _) (Nat.le_refl _) (Nat.le_succ _)⟩
  entry _ _ _ hsep hsteps _ :=
    ends_insertEntry (fun _ hs => hs.1.1.wellFormed) (fun _ _ hs hsteps hpass =>
    ⟨sound_entered hs.1 hsteps hpass, counted_entered hs.2⟩) hsep hsteps

theorem counted_reachable (h : Reachable env s) : Counted s := by
  induction h with
  | init hi =>
      obtain ⟨-, -, -, -, hns, hclass, -, hcon, -⟩ := hi
      exact ⟨Nat.le_of_eq hns.symm, Nat.le_of_eq hclass.symm, Nat.le_of_eq hcon.symm⟩
  | @step s a hr henabled ih =>
      by_cases ha : a.ofCatalog = true
      · have hdelete := @ends_deleteEntry env a.txn (fun s => SoundFor a.txn s ∧ Counted s)
          (fun s => SoundFor a.txn s ∧ Counted s) fun s tid tblId hs =>
            ⟨sound_deleteUndoRaw hs.1 tid tblId,
            hs.2.of_same (Nat.le_refl _) (Nat.le_refl _) (Nat.le_refl _)⟩
        exact (kept_counted.call hdelete ha rfl (fun _ _ => trivial)
          ⟨⟨sound_reachable hr, active_of_enabled ha henabled⟩, ih⟩).2
      · cases a with
        | begin t | commit t stops | insert t tblId size chunk | write t op slot =>
            exact ih.of_same (Nat.le_refl _) (Nat.le_refl _) (Nat.le_refl _)
        | createNamespace | deleteNamespace | updateNamespaceName | createTable | createIndexClass
        | updateTableName | createIndex | createConstraint => exact absurd rfl ha

theorem CreateCall.one_le_counter (h : Counted s) (c : CreateCall) : 1 ≤ c.counter s := by
  cases c with
  | «namespace» name => exact h.namespaces
  | object c =>
      cases c with
      | table | index => exact h.classes
      | constraint => exact h.constraints

/-- The next oid is none of those before, and not `INVALID_OID`, as long as the counter has
not wrapped. -/
theorem fresh_ofNat_iff {counter : Nat} (hpos : 1 ≤ counter) :
    (UInt32.ofNat counter ≠ invalidOid ∧ FreshOid counter (.ofNat counter)) ↔ counter < 2 ^ 32 := by
  have htoNat : ∀ n, (UInt32.ofNat n).toNat = n % 2 ^ 32 := fun n => UInt32.toNat_ofNat'
  constructor
  · rintro ⟨hne, hfresh⟩
    by_contra hlt
    -- the oid that was given `2 ^ 32` calls ago
    have hsame : UInt32.ofNat (counter - 2 ^ 32) = UInt32.ofNat counter := by
      refine UInt32.toNat_inj.mp ?_
      rw [htoNat, htoNat]
      omega
    by_cases hzero : counter = 2 ^ 32
    · exact hne (by rw [hzero]; rfl)
    · exact hfresh (counter - 2 ^ 32) (by omega) (by omega) hsame
  · intro hlt
    refine ⟨fun heq => ?_, fun k hk hlt' heq => ?_⟩
    · have hnat := congrArg UInt32.toNat heq
      rw [htoNat] at hnat
      have hinvalid : invalidOid.toNat = 0 := rfl
      omega
    · have hnat := congrArg UInt32.toNat heq
      rw [htoNat, htoNat] at hnat
      omega

/-- **A call that succeeds has created its object under a fresh oid exactly when it got the
lock** and the oids have not been used up. -/
theorem created_iff {c : CreateCall} {raced : Option Nat} (hr : Reachable env s)
    (hctl : (s.db.txns t).ctl = .active) (hok : c.run env t raced s = .ok oid s') :
    (oid ≠ invalidOid ∧ FreshOid (c.counter s) oid ∧ c.Created env t s s' oid) ↔
      s.locks t raced = true ∧ c.counter s < 2 ^ 32 := by
  have hs : SoundFor t s := ⟨sound_reachable hr, hctl⟩
  have hpos := c.one_le_counter (counted_reachable hr)
  constructor
  · rintro ⟨hne, hfresh, -⟩
    cases hlock : s.locks t raced with
    | false => exact absurd (invalidOid_of_not_locks hlock hok) hne
    | true =>
        obtain ⟨rfl, -⟩ := created_of_locks hs hlock hok
        exact ⟨rfl, (fresh_ofNat_iff hpos).mp ⟨hne, hfresh⟩⟩
  · rintro ⟨hlock, hlt⟩
    obtain ⟨rfl, hcreated⟩ := created_of_locks hs hlock hok
    obtain ⟨hne, hfresh⟩ := (fresh_ofNat_iff hpos).mpr hlt
    exact ⟨hne, hfresh, hcreated⟩

/-- A table with one column. -/
theorem created_iff_table :
    ∃ oid s', (CreateCall.object (.table [byte 98] 1 [⟨[byte 99], .integer, false⟩])).run
      .plain 0 none withNamespace = .ok oid s' ∧
    CreateCall.Created .plain 0 withNamespace s' oid
      (.object (.table [byte 98] 1 [⟨[byte 99], .integer, false⟩])) := by
  obtain ⟨oid, s', hok⟩ := ok_of_succeeds (r := (CreateCall.object (.table [byte 98] 1
    [⟨[byte 99], .integer, false⟩])).run .plain 0 none withNamespace) (by decide)
  exact ⟨oid, s', hok,
    ((created_iff withNamespace_reachable rfl hok).mpr ⟨by decide, by decide⟩).2.2⟩

/-- A second transaction has begun; the first has the lock. -/
def withSecond : DatabaseCatalog := withNamespace.call .plain (.begin 1)

theorem withSecond_reachable : Reachable .plain withSecond :=
  .step (.begin 1) withNamespace_reachable rfl

/-- Without the lock `CreateTable` succeeds and creates nothing. -/
theorem created_without_lock :
    ¬ ∀ (env : CatalogEnv) (s s' : DatabaseCatalog) (t : TxnId) (raced : Option Nat)
    (c : CreateCall) (oid : Oid),
      Reachable env s → (s.db.txns t).ctl = .active → c.run env t raced s = .ok oid s' →
      oid ≠ invalidOid ∧ FreshOid (c.counter s) oid ∧ c.Created env t s s' oid := by
  intro hall
  let c : CreateCall := .object (.table [byte 98] 1 [])
  obtain ⟨oid, s', hok⟩ := ok_of_succeeds (r := c.run .plain 1 none withSecond) (by decide)
  have hinvalid : oid = invalidOid := invalidOid_of_not_locks (by decide) hok
  exact (hall .plain withSecond s' 1 none c oid withSecond_reachable rfl hok).1 hinvalid

end DatabaseCatalog

end Db7
