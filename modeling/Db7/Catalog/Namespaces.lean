import Db7.Catalog.FailedCalls

/-!
# The namespaces that a transaction sees

An oid names a namespace when the index of oids has a tuple under it that is not
deleted and that `SelectIntoChunk` returns (`HasNamespace`). A key of the index has one
such tuple at most, so the namespaces are a map from oids to names.

* **reading** (`select_of_head`): a row whose newest version is an insert that does not
  conflict is visible;
* **entries** (`namespaceAt_entered`): one namespace more, when the entry comes to the
  index of oids;
* **deletes** (`hasNamespace_deleted`): the namespaces of the other tuples;
* **what holds of every catalog** (`tidy_reachable`): a tuple has one key in an index, and
  a transaction does not conflict with itself.
-/

namespace Db7

open Lib Function CatalogColumnOid Value DataChunkBuilder

namespace DatabaseCatalog

variable {env : CatalogEnv} {t : TxnId} {s s' : DatabaseCatalog} {chunk : DataChunk}
  {steps : List EntryStep} {tid tid' : TupleId} {oid oid' : Oid} {name name' : List Byte}

/-- `SelectIntoChunk` of a row of `pg_namespace`. -/
def readNamespace (s : DatabaseCatalog) (t : TxnId) (tid : TupleId) : RowStatus × DataChunk :=
  s.db.selectIntoChunk (s.db.txns t) (tid.slot CatalogTable.namespaces.oid)
    CatalogTable.namespaces.createDataChunk

/-- The index of oids has the tuple, it is not deleted, and `t` reads the name from it. -/
structure NamespaceAt (env : CatalogEnv) (s : DatabaseCatalog) (t : TxnId)
    (tid : TupleId) (oid : Oid) (name : List Byte) : Prop where
  entry : tid ∈ s.lookup env .namespaceNspoid (buildNamespaceOidChunk oid)
  live : s.db.isLive tid CatalogTable.namespaces.oid = true
  visible : (s.readNamespace t tid).1 = .visible
  named : ((s.readNamespace t tid).2.get nspname).map Value.entryText = some name

/-- The map from oids to names that `t` sees. -/
def HasNamespace (env : CatalogEnv) (s : DatabaseCatalog) (t : TxnId) (oid : Oid)
    (name : List Byte) : Prop :=
  ∃ tid, NamespaceAt env s t tid oid name

/-! ## Keys -/

theorem get_nspoid (oid : Oid) (name : List Byte) :
    (buildNamespaceChunk oid name).get nspoid = some (number 4 oid.toNat) := rfl

theorem get_nspname (oid : Oid) (name : List Byte) :
    (buildNamespaceChunk oid name).get nspname = some (entry name) := rfl

theorem columns_nspoid : env.columns .namespaceNspoid (buildNamespaceChunk oid name) =
    env.columns .namespaceNspoid (buildNamespaceOidChunk oid') ↔ oid = oid' :=
  CatalogEnv.columns_oid_inj (c := nspoid) rfl (get_nspoid oid name) rfl

theorem columns_nspoidChunk : env.columns .namespaceNspoid (buildNamespaceOidChunk oid) =
    env.columns .namespaceNspoid (buildNamespaceOidChunk oid') ↔ oid = oid' :=
  CatalogEnv.columns_oid_inj (c := nspoid) rfl rfl rfl

/-- The name plays no part in the index of oids. -/
theorem lookup_nspoid : s.lookup env .namespaceNspoid (buildNamespaceChunk oid name) =
    s.lookup env .namespaceNspoid (buildNamespaceOidChunk oid) := by
  unfold lookup
  rw [columns_nspoid.mpr rfl]

/-! ## What `t` reads -/

theorem SameRow.readNamespace (h : SameRow t s s' (tid.slot CatalogTable.namespaces.oid)) :
    s'.readNamespace t tid = s.readNamespace t tid := by
  unfold DatabaseCatalog.readNamespace Db.selectIntoChunk
  rw [h.chain, h.rows, h.bit, h.schema, h.times.1, h.times.2]

/-- The row of a newest version that is no delete and does not conflict is visible. -/
theorem select_of_head {slot : Slot} {undo : UndoRecord}
    (hnewest : s.db.newest slot = some undo) (hconflict : s.db.conflicts t undo = false)
    (hdeleted : undo.isDeleted = false) (chunk : DataChunk) :
    s.db.selectIntoChunk (s.db.txns t) slot chunk =
      (.visible, readSingleIntoChunk (s.db.schema slot.tbl) chunk (s.db.rows slot)) := by
  obtain ⟨p, hhead, hrecord⟩ := Option.bind_eq_some_iff.mp hnewest
  obtain ⟨rest, hversions⟩ : ∃ rest, s.db.versions slot = p :: rest :=
    List.head?_eq_some_iff.mp hhead
  have hchain : s.db.chain slot = undo :: rest.filterMap s.db.record := by
    unfold Db.chain
    rw [hversions, List.filterMap_cons, hrecord]
  unfold Db.selectIntoChunk
  rw [hchain]
  dsimp only
  by_cases hown : undo.timestamp = (s.db.txns t).finish
  · rw [if_pos hown, hdeleted]
    rfl
  · -- it was committed when `t` began
    have hold : isNewerThan undo.timestamp (s.db.txns t).start = false := by
      unfold Db.conflicts at hconflict
      obtain ⟨huncommitted, hcommitted⟩ := hasConflictTs_eq_false.mp hconflict
      cases hc : isCommitted undo.timestamp with
      | false => exact absurd (huncommitted hc) hown
      | true => simpa [isNewerThan] using hcommitted hc
    rw [if_neg hown, selectWalk, hold, hdeleted]
    rfl

/-- A tuple under the oid that is not deleted and does not conflict is a namespace. -/
theorem namespaceAt_of_head
    (hmem : tid ∈ s.lookup env .namespaceNspoid (buildNamespaceOidChunk oid)) {undo : UndoRecord}
    (hundo : s.db.getDelta tid CatalogTable.namespaces.oid = some undo)
    (hconflict : s.db.conflicts t undo = false) (hdeleted : undo.isDeleted = false) :
    ∃ name, NamespaceAt env s t tid oid name := by
  have hread : s.readNamespace t tid = _ := select_of_head hundo hconflict hdeleted _
  obtain ⟨v, hget⟩ : ∃ v, (s.readNamespace t tid).2.get nspname = some v := by
    rw [hread]
    exact ⟨_, get_readSingleIntoChunk (by decide)⟩
  refine ⟨v.entryText, hmem, ?_, ?_, ?_⟩
  · unfold Db.isLive
    rw [hundo, Option.all_some, hdeleted]
    rfl
  · rw [hread]
  · rw [hget]
    rfl

theorem NamespaceAt.name_eq (h : NamespaceAt env s t tid oid name)
    (h' : NamespaceAt env s t tid oid' name') :
    name = name' := Option.some.inj (h.named.symm.trans h'.named)

/-- An oid has one tuple. -/
theorem NamespaceAt.tid_eq (hw : s.WellFormed) (h : NamespaceAt env s t tid oid name)
    (h' : NamespaceAt env s t tid' oid name') : tid = tid' :=
  hw.unique .namespaceNspoid rfl _ tid tid' h.entry h'.entry h.live h'.live

/-- The namespaces are a map. -/
theorem HasNamespace.name_eq (hw : s.WellFormed) (h : HasNamespace env s t oid name)
    (h' : HasNamespace env s t oid name') : name = name' := by
  obtain ⟨tid, hat⟩ := h
  obtain ⟨tid', hat'⟩ := h'
  obtain rfl := hat.tid_eq hw hat'
  exact hat.name_eq hat'

/-- A tuple that stays as it is. -/
theorem namespaceAt_congr (hrow : SameRow t s s' (tid.slot CatalogTable.namespaces.oid))
    (hdelta : s'.db.getDelta tid CatalogTable.namespaces.oid =
      s.db.getDelta tid CatalogTable.namespaces.oid)
    (hentry : tid ∈ s'.lookup env .namespaceNspoid (buildNamespaceOidChunk oid) ↔
      tid ∈ s.lookup env .namespaceNspoid (buildNamespaceOidChunk oid)) :
    NamespaceAt env s' t tid oid name ↔ NamespaceAt env s t tid oid name := by
  have hread := hrow.readNamespace
  have hlive : s'.db.isLive tid CatalogTable.namespaces.oid =
      s.db.isLive tid CatalogTable.namespaces.oid :=
    isLive_congr hdelta
  constructor
  · rintro ⟨hmem, hl, hvis, hname⟩
    exact ⟨hentry.mp hmem, hlive ▸ hl, hread ▸ hvis, hread ▸ hname⟩
  · rintro ⟨hmem, hl, hvis, hname⟩
    exact ⟨hentry.mpr hmem, hlive ▸ hl, hread ▸ hvis, hread ▸ hname⟩

/-! ## Entries and deletes -/

/-- An entry adds a namespace when it comes to the index of oids. -/
theorem namespaceAt_entered (hw : s.WellFormed) (hlen : name.length ≤ inlineSizeCap) :
    NamespaceAt env (s.entered env t .namespaces (buildNamespaceChunk oid name) steps) t
      tid oid' name' ↔
      NamespaceAt env s t tid oid' name' ∨
        IndexOid.namespaceNspoid ∈ written steps ∧ tid = s.nextTid env .namespaces ∧ oid' = oid ∧
          name' = name := by
  let r := s.entered env t .namespaces (buildNamespaceChunk oid name) steps
  let new := s.nextTid env .namespaces
  have hnew : IndexOid.namespaceNspoid ∈ written steps → NamespaceAt env r t new oid name := by
    intro hwritten
    obtain ⟨hvisible, hget⟩ :=
      @select_entered env t s (buildNamespaceChunk oid name) .namespaces steps hw
    refine ⟨mem_entered.mpr (.inl ⟨hwritten, (columns_nspoid.mpr rfl).symm, rfl⟩),
      isLive_nextTid hw, hvisible, ?_⟩
    show ((r.db.selectIntoChunk (r.db.txns t) (new.slot _) _).2.get nspname).map
      Value.entryText = some name
    rw [hget nspname (by decide) _ (get_nspname oid name), Option.map_some, entryText_entry hlen]
  have hold : tid ∈ s.lookup env .namespaceNspoid (buildNamespaceOidChunk oid') →
      (NamespaceAt env r t tid oid' name' ↔ NamespaceAt env s t tid oid' name') := by
    intro hmem
    have halloc : s.Allocated tid CatalogTable.namespaces.oid :=
      (hw.allocated .namespaceNspoid _ tid hmem).2
    have hdelta : r.db.getDelta tid CatalogTable.namespaces.oid =
        s.db.getDelta tid CatalogTable.namespaces.oid :=
      delta_entered hw hmem
    exact namespaceAt_congr (sameRow_entered hw halloc.ne_nextTid) hdelta
      ⟨fun _ => hmem, fun _ => mem_entered.mpr (.inr hmem)⟩
  constructor
  · intro hat
    rcases mem_entered.mp hat.entry with ⟨hwritten, hkey, rfl⟩ | hmem
    · obtain rfl : oid = oid' := columns_nspoid.mp hkey.symm
      exact .inr ⟨hwritten, rfl, rfl, hat.name_eq (hnew hwritten)⟩
    · exact .inl ((hold hmem).mp hat)
  · rintro (hat | ⟨hwritten, rfl, rfl, rfl⟩)
    · exact (hold hat.entry).mpr hat
    · exact hnew hwritten

theorem hasNamespace_entered (hw : s.WellFormed) (hlen : name.length ≤ inlineSizeCap) :
    HasNamespace env
      (s.entered env t .namespaces (buildNamespaceChunk oid name) steps) t oid' name' ↔
      HasNamespace env s t oid' name' ∨ IndexOid.namespaceNspoid ∈ written steps ∧ oid' = oid ∧
        name' = name := by
  unfold HasNamespace
  simp only [namespaceAt_entered hw hlen, exists_or]
  refine or_congr_right ⟨fun ⟨_, hwritten, _, h⟩ => ⟨hwritten, h⟩, fun ⟨hwritten, h⟩ =>
    ⟨_, hwritten, rfl, h⟩⟩

/-- A delete leaves the rows of the other tuples. -/
theorem sameRow_deleteUndoRaw (hv : s.db.ChainsValid) {tblId : Nat} {slot : Slot}
    (hne : slot ≠ tid.slot tblId) :
    SameRow t s { s with db := (s.db.deleteUndoRaw t tid tblId).2 } slot := by
  have hw := Db.written_tableWrite s.db t .deleteRaw (tid.slot tblId)
  have hpage : (s.db.tableWrite t .deleteRaw (tid.slot tblId)).rows slot = s.db.rows slot ∧
      (s.db.tableWrite t .deleteRaw (tid.slot tblId)).deletedBit slot = s.db.deletedBit slot := by
    cases hb :
      s.db.blocked (s.db.txns t) (tid.slot tblId)
      (s.db.versions (tid.slot tblId)).head? .deleteRaw <;>
      simp [Db.tableWrite, Db.setTxn, hb, hne]
  exact ⟨Db.chain_of_append (hv slot) (hw.versions_of_ne hne) hw.undo_append, hpage.1,
    hpage.2, hw.schema,
    (hw.txns t).1, (hw.txns t).2.1⟩

/-- A delete leaves the heads of the other tuples. -/
theorem getDelta_deleteUndoRaw (hv : s.db.ChainsValid) {tblId : Nat} {other : TupleId}
    (hne : other ≠ tid) :
    (s.db.deleteUndoRaw t tid tblId).2.getDelta other tblId = s.db.getDelta other tblId := by
  unfold Db.getDelta
  rw [Db.newest_deleteUndoRaw hv, if_neg fun h => hne (TupleId.slot_inj.mp h.1).2]

theorem sameTimes_deleteUndoRaw {tblId : Nat} :
    SameTimes t s { s with db := (s.db.deleteUndoRaw t tid tblId).2 } :=
  have hw := Db.written_tableWrite s.db t .deleteRaw (tid.slot tblId)
  ⟨(hw.txns t).1, (hw.txns t).2.1⟩

/-- A delete that succeeds is the head of its tuple. -/
theorem getDelta_deleteUndoRaw_self (hv : s.db.ChainsValid) {tblId : Nat}
    (hok : (s.db.deleteUndoRaw t tid tblId).1 = true) :
    (s.db.deleteUndoRaw t tid tblId).2.getDelta tid tblId =
      some (.initializeDelete (s.db.txns t).finish (tid.slot tblId)) := by
  unfold Db.getDelta
  rw [Db.newest_deleteUndoRaw hv, if_pos ⟨rfl, hok⟩]

theorem isLive_deleteUndoRaw (hw : s.WellFormed) {tblId : Nat}
    (hok : (s.db.deleteUndoRaw t tid tblId).1 = true) :
    (s.db.deleteUndoRaw t tid tblId).2.isLive tid tblId = false := by
  unfold Db.isLive
  rw [getDelta_deleteUndoRaw_self hw.chains hok]
  rfl

/-- A delete that succeeds leaves the namespaces of the other tuples. -/
theorem namespaceAt_deleted {other : TupleId} (hw : s.WellFormed)
    (hok : (s.db.deleteUndoRaw t tid CatalogTable.namespaces.oid).1 = true) :
    NamespaceAt env { s with db := (s.db.deleteUndoRaw t tid CatalogTable.namespaces.oid).2 } t
      other oid name ↔
      other ≠ tid ∧ NamespaceAt env s t other oid name := by
  by_cases heq : other = tid
  · subst heq
    refine ⟨fun hat => ?_, fun h => absurd rfl h.1⟩
    -- the deleted tuple is none
    exact absurd hat.live (by simp [isLive_deleteUndoRaw hw hok])
  · have hne : other.slot CatalogTable.namespaces.oid ≠ tid.slot CatalogTable.namespaces.oid :=
      fun h => heq (TupleId.slot_inj.mp h).2
    rw [namespaceAt_congr (sameRow_deleteUndoRaw hw.chains hne)
      (getDelta_deleteUndoRaw hw.chains heq) Iff.rfl]
    exact ⟨fun hat => ⟨heq, hat⟩, fun h => h.2⟩

/-! ## The parts of the operations -/

/-- What `GetTidForModify` answers about tuples with versions: a failure, none of them
because all are deleted, or one that can be deleted. -/
theorem getTidForModify_cases {tblId : Nat} {tids : List TupleId}
    (hversioned : ∀ tid ∈ tids, ∃ undo, s.db.getDelta tid tblId = some undo) :
    match s.db.getTidForModify t tblId tids with
    | .error _ => True
    | .ok tid =>
        (tid = invalidTid ∧ ∀ other ∈ tids, s.db.hasUniqueConflict t other tblId = false) ∨
          (tid ∈ tids ∧ ∃ undo, s.db.getDelta tid tblId = some undo ∧
            s.db.conflicts t undo = false ∧
            undo.isDeleted = false) := by
  induction tids with
  | nil => exact .inl ⟨rfl, fun _ h => absurd h List.not_mem_nil⟩
  | cons tid tids ih =>
      obtain ⟨undo, hundo⟩ := hversioned tid List.mem_cons_self
      have hrest := ih fun other h => hversioned other (List.mem_cons_of_mem _ h)
      simp only [Db.getTidForModify, hundo]
      by_cases hconflict : s.db.conflicts t undo = true
      · simp [hconflict]
      · rw [Bool.not_eq_true] at hconflict
        cases hdeleted : undo.isDeleted with
        | false =>
            simp only [hconflict, Bool.false_eq_true, if_false, Bool.not_false, if_true]
            exact .inr ⟨List.mem_cons_self, undo, hundo, hconflict, hdeleted⟩
        | true =>
            simp only [hconflict, Bool.false_eq_true, if_false, Bool.not_true]
            have hfree : s.db.hasUniqueConflict t tid tblId = false := by
              simp [Db.hasUniqueConflict, hundo, hconflict, hdeleted]
            cases hget : s.db.getTidForModify t tblId tids with
            | error message => trivial
            | ok found =>
                rw [hget] at hrest
                rcases hrest with ⟨hinvalid, hall⟩ | ⟨hmem, hhead⟩
                · exact .inl ⟨hinvalid, List.forall_mem_cons.mpr ⟨hfree, hall⟩⟩
                · exact .inr ⟨List.mem_cons_of_mem _ hmem, hhead⟩

/-- A tuple that `GetTidForModify` has found is deleted. -/
theorem deleteUndoRaw_of_head (hw : s.WellFormed) {tblId : Nat} {undo : UndoRecord}
    (hundo : s.db.getDelta tid tblId = some undo) (hconflict : s.db.conflicts t undo = false)
    (hdeleted : undo.isDeleted = false) : (s.db.deleteUndoRaw t tid tblId).1 = true := by
  show (! s.db.blocked (s.db.txns t) (tid.slot tblId) (s.db.versions (tid.slot tblId)).head?
    .deleteRaw) = true
  unfold Db.getDelta at hundo
  rw [Db.blocked_deleteRaw hw.chains, hundo]
  simp [hconflict, hdeleted]

/-- A delete through an index, in one piece. -/
theorem deleteEntry_eq (index : IndexOid) (chunk : DataChunk) (s : DatabaseCatalog) :
    deleteEntry env t index chunk s =
      match s.db.getTidForModify t index.heapTblId (s.lookup env index chunk) with
      | .error _ => .ok false s
      | .ok tid =>
          if tid = invalidTid then .ok true s
          else .ok (s.db.deleteUndoRaw t tid index.heapTblId).1
            { s with db := (s.db.deleteUndoRaw t tid index.heapTblId).2 } := by
  show (match s.db.getTidForModify t index.heapTblId (s.lookup env index chunk) with
    | .error _ => return false
    | .ok tid =>
        if tid = invalidTid then return true
        else modifyGet fun s =>
          ((s.db.deleteUndoRaw t tid index.heapTblId).1,
            { s with db := (s.db.deleteUndoRaw t tid index.heapTblId).2 } ) : CatalogM Bool) s = _
  cases s.db.getTidForModify t index.heapTblId (s.lookup env index chunk) with
  | error message => rfl
  | ok tid =>
      dsimp only
      split <;> rfl

/-- The three ends of `CreateNamespaceEntry`. -/
theorem createNamespaceEntry_eq (hw : s.WellFormed) : createNamespaceEntry env t name oid s =
    if s.taken env t .namespaceNspname (buildNamespaceChunk oid name) then
      .error "Failed to insert to nspname index"
        (s.entered env t .namespaces (buildNamespaceChunk oid name) [])
    else if s.taken env t .namespaceNspoid (buildNamespaceChunk oid name) then
      .error "Failed to insert to nspoid index"
        (s.entered env t .namespaces (buildNamespaceChunk oid name)
        [.insertUnique .namespaceNspname "Failed to insert to nspname index"])
    else .ok oid (s.entered env t .namespaces (buildNamespaceChunk oid name) namespaceSteps) := by
  have hentry :=
    @insertEntry_eq env t s (buildNamespaceChunk oid name) .namespaces namespaceSteps hw
    separate_namespaceSteps
  unfold createNamespaceEntry
  cases hname : s.taken env t .namespaceNspname (buildNamespaceChunk oid name) with
  | true =>
      refine run_bind_error ?_
      rw [hentry]
      simp [namespaceSteps, EntryStep.passes, hname, EntryStep.message]
  | false =>
      cases hoid : s.taken env t .namespaceNspoid (buildNamespaceChunk oid name) with
      | true =>
          refine run_bind_error ?_
          rw [hentry]
          simp [namespaceSteps, EntryStep.passes, hname, hoid, EntryStep.message]
      | false =>
          refine (run_bind_ok (a := ()) ?_).trans rfl
          rw [hentry]
          simp [namespaceSteps, EntryStep.passes, hname, hoid]

/-! ## What holds of every catalog -/

/-- A catalog between two calls, with what the namespaces need. -/
structure Tidy (s : DatabaseCatalog) : Prop where
  sound : s.Sound
  oneKey : ∀ index key key' tid, tid ∈ (s.indexes index).get key →
    tid ∈ (s.indexes index).get key' → key = key'
  clock : s.db.time < 2 ^ 64
  own : ∀ t, (s.db.txns t).ctl ≠ .idle →
    hasConflictTs (s.db.txns t).finish (s.db.txns t).finish (s.db.txns t).start = false

/-- A tidy catalog in which `t` may act. -/
def TidyFor (t : TxnId) (s : DatabaseCatalog) : Prop := s.Tidy ∧ (s.db.txns t).ctl = .active

theorem TidyFor.soundFor (h : TidyFor t s) : SoundFor t s := ⟨h.1.sound, h.2⟩

/-- What a transaction has written does not conflict with it. -/
theorem TidyFor.conflicts_own (h : TidyFor t s) {undo : UndoRecord}
    (hown : undo.timestamp = (s.db.txns t).finish) :
    s.db.conflicts t undo = false := by
  unfold Db.conflicts
  rw [hown]
  exact h.1.own t (by rw [h.2]; decide)

/-- The times of the transactions are as they were. -/
theorem Tidy.of_times (h : s.Tidy) (hsound : s'.Sound) (hindexes : s'.indexes = s.indexes)
    (hclock : s'.db.time = s.db.time)
    (htxns : ∀ u, (s'.db.txns u).start = (s.db.txns u).start ∧ (s'.db.txns u).finish =
      (s.db.txns u).finish ∧
      (s'.db.txns u).ctl = (s.db.txns u).ctl) : s'.Tidy where
  sound := hsound
  oneKey := by
    rw [hindexes]
    exact h.oneKey
  clock := by
    rw [hclock]
    exact h.clock
  own u hu := by
    obtain ⟨hstart, hfinish, hctl⟩ := htxns u
    rw [hctl] at hu
    rw [hstart, hfinish]
    exact h.own u hu

theorem TidyFor.of_same (h : TidyFor t s) (hdb : s'.db = s.db) (hfsm : s'.fsm = s.fsm)
    (hindexes : s'.indexes = s.indexes) : TidyFor t s' := by
  refine ⟨h.1.of_times (h.1.sound.of_same hdb hfsm hindexes) hindexes (by rw [hdb]) fun u => ?_, ?_⟩
  · rw [hdb]
    exact ⟨rfl, rfl, rfl⟩
  · rw [hdb]
    exact h.2

theorem TidyFor.entered {tbl : CatalogTable} (h : TidyFor t s) (hsteps : StepsOf tbl steps)
    (hpass : ∀ step ∈ steps, step.passes env t s chunk = true) :
    TidyFor t (s.entered env t tbl chunk steps) := by
  have hsound := sound_entered h.soundFor hsteps hpass
  have hw := h.1.sound.wellFormed
  refine ⟨⟨hsound.1, fun index key key' tid hmem hmem' => ?_, ?_, fun u hu => ?_⟩, hsound.2⟩
  · -- the new tuple is in no index yet
    have hfresh : index ∈ written steps → ∀ k, s.nextTid env tbl ∉ (s.indexes index).get k := by
      intro hwritten k hold
      obtain ⟨step, hstep, hwrites⟩ := mem_written.mp hwritten
      have htbl := (hsteps step hstep index hwrites).1
      exact nextTid_fresh hw hold (TupleId.slot_inj.mpr ⟨htbl, rfl⟩)
    rcases mem_entered.mp hmem with ⟨hwritten, rfl, rfl⟩ | hold
    · rcases mem_entered.mp hmem' with ⟨-, rfl, -⟩ | hold'
      · rfl
      · exact absurd hold' (hfresh hwritten key')
    · rcases mem_entered.mp hmem' with ⟨hwritten, -, rfl⟩ | hold'
      · exact absurd hold (hfresh hwritten key)
      · exact h.1.oneKey index key key' tid hold hold'
  · rw [db_entered]
    exact h.1.clock
  · rw [db_entered] at hu ⊢
    have htxns := @Db.txns_insertTuple s.db t tbl.oid (s.fsm.get (env.chunkSize tbl)).1 chunk u
    rw [htxns.2.2] at hu
    rw [htxns.1, htxns.2.1]
    exact h.1.own u hu

theorem kept_tidyFor : Kept env t (fun _ => True) (TidyFor t) where
  lock _ _ _ hs := hs.of_same rfl rfl rfl
  namespaceOid _ hs := hs.of_same rfl rfl rfl
  classOid _ hs := hs.of_same rfl rfl rfl
  attributeOid _ hs := hs.of_same rfl rfl rfl
  constraintOid _ hs := hs.of_same rfl rfl rfl
  entry _ _ _ hsep hsteps _ :=
    ends_insertEntry (fun _ hs => hs.1.sound.wellFormed) (fun _ _ hs => hs.entered) hsep hsteps

theorem time_tableWrite (op : WriteOp) (slot : Slot) :
    (s.db.tableWrite t op slot).time = s.db.time := by
  cases hb : s.db.blocked (s.db.txns t) slot (s.db.versions slot).head? op <;>
    simp [Db.tableWrite, Db.setTxn, hb]

theorem tidy_deleteUndoRaw (h : TidyFor t s) (tid : TupleId) (tblId : Nat) :
    TidyFor t { s with db := (s.db.deleteUndoRaw t tid tblId).2 } := by
  have hsound := sound_deleteUndoRaw h.soundFor tid tblId
  have hw := Db.written_tableWrite s.db t .deleteRaw (tid.slot tblId)
  exact ⟨h.1.of_times hsound.1 rfl (time_tableWrite ..) hw.txns, hsound.2⟩

theorem tidy_init (h : s.Init) : s.Tidy := by
  have hsound := sound_init h
  obtain ⟨⟨htime, -, htxns, -⟩, -, -, hindexes, -⟩ := h
  refine ⟨hsound, fun index key key' tid hmem => ?_, ?_, fun u hu => ?_⟩
  · rw [hindexes] at hmem
    exact absurd hmem List.not_mem_nil
  · rw [htime]
    decide
  · rw [htxns] at hu
    exact absurd rfl hu

theorem tidy_begin (h : s.Tidy) (hctl : (s.db.txns t).ctl = .idle) :
    Tidy { s with db := s.db.beginAlone t } where
  sound := sound_begin h.sound hctl
  oneKey := h.oneKey
  clock := by
    show (s.db.beginAlone t).time < 2 ^ 64
    rw [Db.time_beginAlone]
    exact Nat.mod_lt _ (by decide)
  own u hu := by
    show hasConflictTs ((s.db.beginAlone t).txns u).finish ((s.db.beginAlone t).txns u).finish
      ((s.db.beginAlone t).txns u).start = false
    by_cases heq : u = t
    · subst heq
      obtain ⟨hstart, hfinish, -⟩ := @Db.txns_beginAlone_self s.db u
      rw [hstart, hfinish]
      exact hasConflictTs_own h.clock
    · change ((s.db.beginAlone t).txns u).ctl ≠ .idle at hu
      rw [Db.txns_beginAlone_of_ne heq] at hu ⊢
      exact h.own u hu

theorem tidy_commit (h : s.Tidy) (hctl : (s.db.txns t).ctl = .active) (stops : List Nat) :
    Tidy { s with db := s.db.commitThrough t stops } where
  sound := sound_commit h.sound stops
  oneKey := h.oneKey
  clock := Nat.mod_lt _ (by decide)
  own u hu := by
    obtain ⟨hstart, hfinish, -, hidle⟩ := @Db.txns_commitThrough s.db t u stops
    show hasConflictTs ((s.db.commitThrough t stops).txns u).finish
      ((s.db.commitThrough t stops).txns u).finish
      ((s.db.commitThrough t stops).txns u).start = false
    rw [hstart, hfinish]
    refine h.own u fun hu' => ?_
    by_cases heq : u = t
    · subst heq
      rw [hctl] at hu'
      exact absurd hu' (by decide)
    · exact hu (hidle.mpr ⟨heq, hu'⟩)

/-- **Every reachable catalog is tidy.** -/
theorem tidy_reachable (h : Reachable env s) : s.Tidy := by
  induction h with
  | init hi => exact tidy_init hi
  | @step s a hr henabled ih =>
      by_cases ha : a.ofCatalog = true
      · exact (kept_tidyFor.call (ends_deleteEntry fun _ tid tblId hs =>
          tidy_deleteUndoRaw hs tid tblId) ha rfl
          (fun _ _ => trivial) ⟨ih, active_of_enabled ha henabled⟩).1
      · have hsound : (s.call env a).Sound := sound_reachable (.step a hr henabled)
        cases a with
        | begin t => exact tidy_begin ih henabled
        | commit t stops => exact tidy_commit ih henabled.1 stops
        | insert t tblId size chunk => exact ih.of_times hsound rfl rfl Db.txns_insertTuple
        | write t op slot =>
            exact ih.of_times hsound rfl (time_tableWrite ..)
              (Db.written_tableWrite s.db t op slot).txns
        | createNamespace | deleteNamespace | updateNamespaceName | createTable | createIndexClass
        | updateTableName | createIndex | createConstraint => exact absurd rfl ha

/-- A namespace whose tuple is deleted is gone; the others stay. -/
theorem hasNamespace_deleted (hs : s.Tidy) {old : List Byte} (hat : NamespaceAt env s t tid oid old)
    (hok : (s.db.deleteUndoRaw t tid CatalogTable.namespaces.oid).1 = true) :
    HasNamespace env
      { s with db := (s.db.deleteUndoRaw t tid CatalogTable.namespaces.oid).2 } t oid' name ↔
      oid' ≠ oid ∧ HasNamespace env s t oid' name := by
  have hw := hs.sound.wellFormed
  unfold HasNamespace
  simp only [namespaceAt_deleted hw hok]
  constructor
  · rintro ⟨other, hne, hother⟩
    refine ⟨?_, other, hother⟩
    rintro rfl
    exact hne (hother.tid_eq hw hat)
  · rintro ⟨hne, other, hother⟩
    refine ⟨other, ?_, hother⟩
    rintro rfl
    exact hne (columns_nspoidChunk.mp (hs.oneKey .namespaceNspoid _ _ other hother.entry hat.entry))

end DatabaseCatalog

end Db7
