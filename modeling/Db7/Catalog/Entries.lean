import Db7.Catalog.DatabaseCatalog
import Db7.Lib.Fallible
import Db7.Lib.Lists
import Mathlib.Data.List.Find

/-!
# One row and its index entries

`Table::Insert` fills a tuple that no index names yet, so the steps after it find the
catalog as it was before; and no step looks into an index that an earlier one has
written. An entry therefore succeeds exactly when all of its steps pass in the state
before (`insertEntry_eq`), and what it leaves is known from that state:

* **entries** (`mem_entered`): the new tuple under its keys, in the indexes of the
  steps that were run;
* **heads** (`newest_entered`): one more tuple.
-/

namespace Db7

open Lib Function DataChunkBuilder

namespace IndexOid

/-- The indexes of the modelled tables that are written with `InsertUnique`. -/
def isUnique : IndexOid → Bool
  | namespaceNspoid | namespaceNspname | classReloid | classRelname | attributeAttnum
  | attributeAttrelidAttname | indexIndoid | constraintConoid | constraintConname => true
  | _ => false

end IndexOid

namespace DatabaseCatalog

/-- The tuple has been filled. -/
def Allocated (s : DatabaseCatalog) (tid : TupleId) (tblId : Nat) : Prop :=
  tid.idx < s.db.count tblId tid.pageId

/-- What holds of the catalog between two calls. -/
structure WellFormed (s : DatabaseCatalog) : Prop where
  chains : s.db.ChainsValid
  schema : ∀ tbl : CatalogTable, s.db.schema tbl.oid = tbl.schema
  page : 1 ≤ s.fsm.nextPageId
  /-- An index names filled tuples, none of them `INVALID_TID`. -/
  allocated : ∀ index key tid, tid ∈ (s.indexes index).get key →
    1 ≤ tid.pageId ∧ s.Allocated tid index.heapTblId
  /-- They have versions. -/
  versioned : ∀ index key tid, tid ∈ (s.indexes index).get key →
    ∃ undo, s.db.getDelta tid index.heapTblId = some undo
  /-- In a unique index a key has one tuple that is not deleted. -/
  unique : ∀ index, index.isUnique = true → ∀ key tid tid', tid ∈ (s.indexes index).get key →
    tid' ∈ (s.indexes index).get key → s.db.isLive tid index.heapTblId = true →
      s.db.isLive tid' index.heapTblId = true → tid = tid'

/-! ## Steps -/

namespace EntryStep

variable (env : CatalogEnv) (t : TxnId)

/-- The step does not fail. -/
def passes (s : DatabaseCatalog) (chunk : DataChunk) : EntryStep → Bool
  | .insertUnique index _ => !s.taken env t index chunk
  | .insert _ _ => true
  | .existsNamespace oid => s.rowExists env .namespaceNspoid (buildNamespaceOidChunk oid)
  | .existsTable oid => s.rowExists env .classReloid (buildClassOidChunk oid)

/-- The index that the step writes. -/
def writes : EntryStep → Option IndexOid
  | .insertUnique index _ | .insert index _ => some index
  | .existsNamespace _ | .existsTable _ => none

/-- The index that decides whether the step passes. -/
def reads : EntryStep → Option IndexOid
  | .insertUnique index _ => some index
  | .insert _ _ => none
  | .existsNamespace _ => some .namespaceNspoid
  | .existsTable _ => some .classReloid

/-- The message of the failure. -/
def message : EntryStep → String
  | .insertUnique _ message | .insert _ message => message
  | .existsNamespace _ | .existsTable _ => "Namespace does not exist"

/-- What the step writes when it passes. -/
def apply (chunk : DataChunk) (tid : TupleId) (s : DatabaseCatalog) (step : EntryStep) :
    DatabaseCatalog :=
  match step.writes with
  | some index => s.addEntry env index chunk tid
  | none => s

variable {env t} {s s' : DatabaseCatalog} {chunk : DataChunk} {tid : TupleId} {step : EntryStep}

theorem run_eq : step.run env t chunk tid s =
    if step.passes env t s chunk then .ok () (step.apply env chunk tid s)
      else .error step.message s := by
  cases step with
  | insertUnique index message =>
      show (if s.taken env t index chunk then throw message else set _ : CatalogM Unit) s = _
      cases h : s.taken env t index chunk <;> simp [passes, h] <;> rfl
  | insert index message => rfl
  | existsNamespace oid =>
      show (if s.rowExists env _ _ then pure () else throw _ : CatalogM Unit) s = _
      cases h : s.rowExists env .namespaceNspoid (buildNamespaceOidChunk oid) <;>
        simp [passes, h] <;> rfl
  | existsTable oid =>
      show (if s.rowExists env _ _ then pure () else throw _ : CatalogM Unit) s = _
      cases h : s.rowExists env .classReloid (buildClassOidChunk oid) <;> simp [passes, h] <;> rfl

end EntryStep

/-- No step looks into an index that an earlier one writes. -/
def Separate (steps : List EntryStep) : Prop :=
  steps.Pairwise fun a b => ∀ index, a.writes = some index → b.reads ≠ some index

/-- The steps write indexes of the table, and the unique ones with `InsertUnique`. -/
def StepsOf (tbl : CatalogTable) (steps : List EntryStep) : Prop :=
  ∀ step ∈ steps, ∀ index, step.writes = some index →
    index.heapTblId = tbl.oid ∧ (index.isUnique = true → step.reads = some index)

section Entry

variable {env : CatalogEnv} {t : TxnId} {s s' : DatabaseCatalog} {chunk chunk' : DataChunk}
  {tid : TupleId} {tbl : CatalogTable} {steps : List EntryStep}

/-! ## What the steps see -/

/-- The times of `t` are as they were. -/
def SameTimes (t : TxnId) (s s' : DatabaseCatalog) : Prop :=
  (s'.db.txns t).start = (s.db.txns t).start ∧ (s'.db.txns t).finish = (s.db.txns t).finish

theorem conflicts_congr {undo : UndoRecord} (h : SameTimes t s s') :
    s'.db.conflicts t undo = s.db.conflicts t undo := by
  unfold Db.conflicts
  rw [h.1, h.2]

theorem hasUniqueConflict_congr {tblId : Nat} (h : SameTimes t s s')
    (hdelta : s'.db.getDelta tid tblId = s.db.getDelta tid tblId) :
    s'.db.hasUniqueConflict t tid tblId = s.db.hasUniqueConflict t tid tblId := by
  unfold Db.hasUniqueConflict
  rw [hdelta]
  cases s.db.getDelta tid tblId with
  | none => rfl
  | some undo => simp only [conflicts_congr h]

theorem isLive_congr {tblId : Nat} (hdelta : s'.db.getDelta tid tblId = s.db.getDelta tid tblId) :
    s'.db.isLive tid tblId = s.db.isLive tid tblId := by
  unfold Db.isLive
  rw [hdelta]

/-- What is seen through an index: its entries, the heads of their tuples, and the
times of the transaction. -/
structure SameThrough (t : TxnId) (s s' : DatabaseCatalog) (index : IndexOid) : Prop where
  entries : s'.indexes index = s.indexes index
  delta : ∀ key tid, tid ∈ (s.indexes index).get key →
    s'.db.getDelta tid index.heapTblId = s.db.getDelta tid index.heapTblId
  times : SameTimes t s s'

namespace SameThrough

variable {index : IndexOid}

theorem taken (h : SameThrough t s s' index) :
    s'.taken env t index chunk = s.taken env t index chunk := by
  unfold DatabaseCatalog.taken lookup
  rw [h.entries, Bool.eq_iff_iff, List.any_eq_true, List.any_eq_true]
  refine exists_congr fun tid => and_congr_right fun hmem => ?_
  rw [hasUniqueConflict_congr h.times (h.delta _ tid hmem)]

theorem rowExists (h : SameThrough t s s' index) :
    s'.rowExists env index chunk = s.rowExists env index chunk := by
  unfold DatabaseCatalog.rowExists Db.getTidExists lookup
  rw [h.entries, Bool.eq_iff_iff, List.any_eq_true, List.any_eq_true]
  refine exists_congr fun tid => and_congr_right fun hmem => ?_
  rw [isLive_congr (h.delta _ tid hmem)]

theorem passes {step : EntryStep}
    (h : ∀ index, step.reads = some index → SameThrough t s s' index) :
    step.passes env t s' chunk = step.passes env t s chunk := by
  cases step with
  | insertUnique index message => exact congrArg (! ·) (h index rfl).taken
  | insert index message => rfl
  | existsNamespace oid => exact (h .namespaceNspoid rfl).rowExists
  | existsTable oid => exact (h .classReloid rfl).rowExists

end SameThrough

/-- An entry in one index does not show in the others. -/
theorem sameThrough_addEntry {index index' : IndexOid} (h : index' ≠ index) :
    SameThrough t s (s.addEntry env index chunk tid) index' where
  entries := by
    show update s.indexes index _ index' = _
    rw [update_of_ne h]
  delta _ _ _ := rfl
  times := ⟨rfl, rfl⟩

/-- The steps that write, one after the other. -/
def applySteps (env : CatalogEnv) (chunk : DataChunk) (tid : TupleId) (steps : List EntryStep)
    (s : DatabaseCatalog) : DatabaseCatalog :=
  steps.foldl (EntryStep.apply env chunk tid) s

theorem passes_apply {step step' : EntryStep}
    (h : ∀ index, step.writes = some index → step'.reads ≠ some index) :
    step'.passes env t (step.apply env chunk tid s) chunk' = step'.passes env t s chunk' := by
  refine SameThrough.passes fun index hreads => ?_
  unfold EntryStep.apply
  cases hwrites : step.writes with
  | none => exact ⟨rfl, fun _ _ _ => rfl, rfl, rfl⟩
  | some index' => exact sameThrough_addEntry fun heq => h index' hwrites (heq ▸ hreads)

/-- The steps stop at the first that does not pass in the state before them. -/
theorem runSteps_eq (hsep : Separate steps) : runSteps env t chunk tid steps s =
    match steps.find? fun step => !step.passes env t s chunk with
    | none => .ok () (applySteps env chunk tid steps s)
    | some step => .error step.message
        (applySteps env chunk tid (steps.takeWhile fun step => step.passes env t s chunk) s) := by
  induction steps generalizing s with
  | nil => rfl
  | cons step steps ih =>
      obtain ⟨hhead, hrest⟩ := List.pairwise_cons.mp hsep
      rw [runSteps]
      have hrun := @EntryStep.run_eq env t s chunk tid step
      cases hpass : step.passes env t s chunk with
      | false =>
          rw [hpass] at hrun
          rw [run_bind_error hrun]
          simp [hpass, applySteps]
      | true =>
          rw [hpass, if_pos rfl] at hrun
          rw [run_bind_ok hrun, ih hrest]
          have hsame : ∀ step' ∈ steps, step'.passes env t (step.apply env chunk tid s) chunk =
              step'.passes env t s chunk := fun step' hmem => passes_apply (hhead step' hmem)
          rw [List.find?_congr fun step' hmem => congrArg (! ·) (hsame step' hmem),
            takeWhile_congr hsame]
          simp [hpass, applySteps]

/-! ## The entry as a whole -/

/-- The indexes that the steps write. -/
def written (steps : List EntryStep) : List IndexOid := steps.filterMap EntryStep.writes

theorem mem_written {index : IndexOid} : index ∈ written steps ↔ ∃ step ∈ steps,
      step.writes = some index := by
  unfold written
  rw [List.mem_filterMap]

/-- Steps write indexes only. -/
theorem applySteps_eq :
    ∃ indexes, applySteps env chunk tid steps s = { s with indexes := indexes } := by
  unfold applySteps
  induction steps generalizing s with
  | nil => exact ⟨s.indexes, rfl⟩
  | cons step steps ih =>
      rw [List.foldl_cons]
      obtain ⟨indexes, h⟩ := @ih (step.apply env chunk tid s)
      refine ⟨indexes, ?_⟩
      rw [h]
      unfold EntryStep.apply
      cases step.writes with
      | none => rfl
      | some index => rfl

theorem mem_applySteps {index : IndexOid} {key : Key} {tid' : TupleId} :
    tid' ∈ ((applySteps env chunk tid steps s).indexes index).get key ↔
      (index ∈ written steps ∧ key = env.columns index chunk ∧ tid' = tid) ∨
        tid' ∈ (s.indexes index).get key := by
  unfold applySteps written
  induction steps generalizing s with
  | nil => simp
  | cons step steps ih =>
      rw [List.foldl_cons, ih, List.filterMap_cons]
      unfold EntryStep.apply
      cases step.writes with
      | none => rfl
      | some index' =>
          by_cases h : index = index'
          · subst h
            simp only [addEntry, update_self, Multimap.mem_get_insert, List.mem_cons,
              true_or, true_and]
            constructor
            · rintro (⟨-, hnew⟩ | hnew | hold)
              · exact .inl hnew
              · exact .inl hnew
              · exact .inr hold
            · rintro (hnew | hold)
              · exact .inr (.inl hnew)
              · exact .inr (.inr hold)
          · simp [addEntry, h]

theorem indexes_applySteps {index : IndexOid} (h : index ∉ written steps) :
    (applySteps env chunk tid steps s).indexes index = s.indexes index := by
  unfold applySteps
  induction steps generalizing s with
  | nil => rfl
  | cons step steps ih =>
      have hrest : index ∉ written steps := fun hmem => h <| by
        obtain ⟨step', hstep', hwrites⟩ := mem_written.mp hmem
        exact mem_written.mpr ⟨step', List.mem_cons_of_mem _ hstep', hwrites⟩
      rw [List.foldl_cons, ih hrest]
      unfold EntryStep.apply
      cases hwrites : step.writes with
      | none => rfl
      | some index' =>
          have hne : index ≠ index' := fun heq =>
            h (mem_written.mpr ⟨step, List.mem_cons_self, heq ▸ hwrites⟩)
          show update s.indexes index' _ index = _
          rw [update_of_ne hne]

/-- The state after the insert of a row and its steps. -/
def entered (env : CatalogEnv) (t : TxnId) (s : DatabaseCatalog) (tbl : CatalogTable)
    (chunk : DataChunk) (steps : List EntryStep) : DatabaseCatalog :=
  applySteps env chunk (s.nextTid env tbl) steps (s.insertRow env t tbl chunk)

theorem entered_eq : ∃ indexes, s.entered env t tbl chunk steps =
    { s.insertRow env t tbl chunk with indexes := indexes } := applySteps_eq

theorem db_entered : (s.entered env t tbl chunk steps).db =
    s.db.insertTuple t tbl.oid (s.fsm.get (env.chunkSize tbl)).1 chunk := by
  obtain ⟨indexes, h⟩ := @entered_eq env t s chunk tbl steps
  rw [h]
  rfl

/-- The new tuple is under its keys in the indexes of the steps. -/
theorem mem_entered {index : IndexOid} {key : Key} :
    tid ∈ ((s.entered env t tbl chunk steps).indexes index).get key ↔
      (index ∈ written steps ∧ key = env.columns index chunk ∧ tid = s.nextTid env tbl) ∨
        tid ∈ (s.indexes index).get key := mem_applySteps

/-- One more tuple has a head. -/
theorem newest_entered (hw : s.WellFormed) (slot : Slot) :
    (s.entered env t tbl chunk steps).db.newest slot =
    if slot = (s.nextTid env tbl).slot tbl.oid then some
      (.initializeInsert (s.db.txns t).finish slot)
    else s.db.newest slot := by
  rw [db_entered]
  exact Db.newest_insertTuple hw.chains slot

theorem sameTimes_entered : SameTimes t s (s.entered env t tbl chunk steps) := by
  unfold SameTimes
  rw [db_entered]
  exact ⟨(Db.txns_insertTuple t).1, (Db.txns_insertTuple t).2.1⟩

/-- The new tuple is not one of an index. -/
theorem nextTid_fresh (hw : s.WellFormed) {index : IndexOid} {key : Key}
    (hmem : tid ∈ (s.indexes index).get key) :
    tid.slot index.heapTblId ≠ (s.nextTid env tbl).slot tbl.oid := by
  intro heq
  obtain ⟨htbl, rfl⟩ := TupleId.slot_inj.mp heq
  have halloc := (hw.allocated index key _ hmem).2
  rw [htbl] at halloc
  exact Nat.lt_irrefl _ halloc

theorem delta_entered (hw : s.WellFormed) {index : IndexOid} {key : Key}
    (hmem : tid ∈ (s.indexes index).get key) :
    (s.entered env t tbl chunk steps).db.getDelta tid index.heapTblId =
      s.db.getDelta tid index.heapTblId := by
  unfold Db.getDelta
  rw [newest_entered hw, if_neg (nextTid_fresh hw hmem)]

theorem delta_nextTid (hw : s.WellFormed) : (s.entered env t tbl chunk steps).db.getDelta
      (s.nextTid env tbl) tbl.oid =
    some (.initializeInsert (s.db.txns t).finish ((s.nextTid env tbl).slot tbl.oid)) := by
  unfold Db.getDelta
  rw [newest_entered hw, if_pos rfl]

/-- The other indexes show what they showed. -/
theorem sameThrough_entered (hw : s.WellFormed) {index : IndexOid} (h : index ∉ written steps) :
    SameThrough t s (s.entered env t tbl chunk steps) index where
  entries := indexes_applySteps h
  delta _ _ hmem := delta_entered hw hmem
  times := sameTimes_entered

/-- **An entry succeeds when its steps pass in the state before**; otherwise the steps
before the first that does not pass have been run. -/
theorem insertEntry_eq (hw : s.WellFormed) (hsep : Separate steps) :
    insertEntry env t tbl chunk steps s =
    match steps.find? fun step => !step.passes env t s chunk with
    | none => .ok () (s.entered env t tbl chunk steps)
    | some step => .error step.message
        (s.entered env t tbl chunk (steps.takeWhile fun step => step.passes env t s chunk)) := by
  have hrun : insertEntry env t tbl chunk steps s =
      runSteps env t chunk (s.nextTid env tbl) steps (s.insertRow env t tbl chunk) := rfl
  have hsame : ∀ step ∈ steps, step.passes env t (s.insertRow env t tbl chunk) chunk =
      step.passes env t s chunk := by
    intro step _
    -- the state after no steps
    have hnone : ∀ index, index ∉ written [] := fun _ => List.not_mem_nil
    exact SameThrough.passes fun index _ => sameThrough_entered hw (hnone index)
  rw [hrun, runSteps_eq hsep, List.find?_congr fun step hmem => congrArg (! ·) (hsame step hmem),
    takeWhile_congr hsame]
  rfl

/-- An entry that succeeds. -/
theorem insertEntry_ok (hw : s.WellFormed) (hsep : Separate steps)
    (h : insertEntry env t tbl chunk steps s = .ok () s') :
    s' = s.entered env t tbl chunk steps ∧ ∀ step ∈ steps, step.passes env t s chunk = true := by
  rw [insertEntry_eq hw hsep] at h
  cases hfind : steps.find? fun step => !step.passes env t s chunk with
  | none =>
      rw [hfind] at h
      refine ⟨(EStateM.Result.ok.inj h).2.symm, fun step hmem => ?_⟩
      simpa using List.find?_eq_none.mp hfind step hmem
  | some step =>
      rw [hfind] at h
      exact absurd h (by simp)

/-! ## What an entry keeps -/

theorem isLive_nextTid (hw : s.WellFormed) :
    (s.entered env t tbl chunk steps).db.isLive (s.nextTid env tbl) tbl.oid = true := by
  unfold Db.isLive
  rw [delta_nextTid hw]
  rfl

/-- A tuple under a key that is not taken is deleted. -/
theorem not_live_of_not_taken {index : IndexOid} (h : s.taken env t index chunk = false)
    (hmem : tid ∈ (s.indexes index).get (env.columns index chunk)) :
    ∃ undo, s.db.getDelta tid index.heapTblId = some undo ∧ undo.isDeleted = true ∧
      s.db.conflicts t undo = false := by
  unfold taken lookup at h
  rw [List.any_eq_false] at h
  have hfree := h tid hmem
  unfold Db.hasUniqueConflict at hfree
  cases hundo : s.db.getDelta tid index.heapTblId with
  | none => simp [hundo] at hfree
  | some undo => exact ⟨undo, rfl, by simpa [hundo] using hfree⟩

/-- An entry whose steps pass keeps the catalog well-formed. -/
theorem wellFormed_entered (hw : s.WellFormed) (hsteps : StepsOf tbl steps)
    (hpass : ∀ step ∈ steps, step.passes env t s chunk = true) :
    (s.entered env t tbl chunk steps).WellFormed where
  chains := by
    rw [db_entered]
    exact Db.chainsValid_insertTuple hw.chains
  schema a := by
    rw [db_entered]
    exact hw.schema a
  page := by
    obtain ⟨indexes, h⟩ := @entered_eq env t s chunk tbl steps
    rw [h]
    exact Nat.le_trans hw.page (s.fsm.le_page _)
  allocated index key tid hmem := by
    unfold Allocated
    rw [db_entered, Db.count_insertTuple]
    rcases mem_entered.mp hmem with ⟨hindex, -, rfl⟩ | hold
    · obtain ⟨step, hstep, hwrites⟩ := mem_written.mp hindex
      rw [(hsteps step hstep index hwrites).1]
      refine ⟨Nat.le_trans hw.page (s.fsm.le_page _), ?_⟩
      rw [if_pos ⟨rfl, rfl⟩]
      exact Nat.lt_succ_self _
    · obtain ⟨hpage, halloc⟩ := hw.allocated index key tid hold
      refine ⟨hpage, ?_⟩
      unfold Allocated at halloc
      split
      · rename_i heq
        rw [heq.1, heq.2] at halloc
        omega
      · exact halloc
  versioned index key tid hmem := by
    rcases mem_entered.mp hmem with ⟨hindex, -, rfl⟩ | hold
    · obtain ⟨step, hstep, hwrites⟩ := mem_written.mp hindex
      rw [(hsteps step hstep index hwrites).1]
      exact ⟨_, delta_nextTid hw⟩
    · rw [delta_entered hw hold]
      exact hw.versioned index key tid hold
  unique index hunique key tid tid' hmem hmem' hlive hlive' := by
    -- an old tuple under a key of the new row is deleted
    have hdead : ∀ old, index ∈ written steps → key = env.columns index chunk →
        old ∈ (s.indexes index).get key →
        (s.entered env t tbl chunk steps).db.isLive old index.heapTblId = true → False := by
      intro old hindex hkey hold hlive
      obtain ⟨step, hstep, hwrites⟩ := mem_written.mp hindex
      have hreads := (hsteps step hstep index hwrites).2 hunique
      have hpassed := hpass step hstep
      rw [isLive_congr (delta_entered hw hold)] at hlive
      cases step with
      | insertUnique index' message =>
          obtain rfl : index' = index := by simpa [EntryStep.reads] using hreads
          obtain ⟨undo, hundo, hdeleted, -⟩ :=
            not_live_of_not_taken (by simpa [EntryStep.passes] using hpassed) (hkey ▸ hold)
          simp [Db.isLive, hundo, hdeleted] at hlive
      | insert index' message => simp [EntryStep.reads] at hreads
      | existsNamespace oid => simp [EntryStep.writes] at hwrites
      | existsTable oid => simp [EntryStep.writes] at hwrites
    rcases mem_entered.mp hmem with ⟨hindex, hkey, rfl⟩ | hold
    · rcases mem_entered.mp hmem' with ⟨-, -, rfl⟩ | hold'
      · rfl
      · exact (hdead tid' hindex hkey hold' hlive').elim
    · rcases mem_entered.mp hmem' with ⟨hindex, hkey, rfl⟩ | hold'
      · exact (hdead tid hindex hkey hold hlive).elim
      · rw [isLive_congr (delta_entered hw hold)] at hlive
        rw [isLive_congr (delta_entered hw hold')] at hlive'
        exact hw.unique index hunique key tid tid' hold hold' hlive hlive'

/-- What calls that create something keep: tuples, their rows and their heads, index
entries, and the times of the transactions. -/
structure Grows (s s' : DatabaseCatalog) : Prop where
  count : ∀ tblId pid, s.db.count tblId pid ≤ s'.db.count tblId pid
  newest : ∀ tid tblId, s.Allocated tid tblId → s'.db.newest (tid.slot tblId) =
    s.db.newest (tid.slot tblId)
  rows : ∀ tid tblId, s.Allocated tid tblId → s'.db.rows (tid.slot tblId) =
    s.db.rows (tid.slot tblId)
  entries : ∀ index key tid, tid ∈ (s.indexes index).get key → tid ∈ (s'.indexes index).get key

namespace Grows

variable {s'' : DatabaseCatalog}

theorem refl (s : DatabaseCatalog) : Grows s s :=
  ⟨fun _ _ => Nat.le_refl _, fun _ _ _ => rfl, fun _ _ _ => rfl, fun _ _ _ h => h⟩

/-- Only the lock, the counters and the like are different. -/
theorem of_eq (hdb : s'.db = s.db) (hindexes : s'.indexes = s.indexes) : Grows s s' := by
  refine ⟨fun _ _ => ?_, fun _ _ _ => ?_, fun _ _ _ => ?_, fun _ _ _ h => ?_⟩
  · rw [hdb]
  · rw [hdb]
  · rw [hdb]
  · rwa [hindexes]

theorem allocated (h : Grows s s') {tblId : Nat} (halloc : s.Allocated tid tblId) :
    s'.Allocated tid tblId :=
  Nat.lt_of_lt_of_le halloc (h.count tblId tid.pageId)

theorem trans (h : Grows s s') (h' : Grows s' s'') : Grows s s'' where
  count tblId pid := Nat.le_trans (h.count tblId pid) (h'.count tblId pid)
  newest tid tblId halloc := by
    rw [h'.newest tid tblId (h.allocated halloc), h.newest tid tblId halloc]
  rows tid tblId halloc := by rw [h'.rows tid tblId (h.allocated halloc), h.rows tid tblId halloc]
  entries index key tid hmem := h'.entries index key tid (h.entries index key tid hmem)

end Grows

theorem grows_entered (hw : s.WellFormed) : Grows s (s.entered env t tbl chunk steps) where
  count tblId pid := by
    rw [db_entered, Db.count_insertTuple]
    split
    · rename_i heq
      rw [heq.1, heq.2]
      exact Nat.le_succ _
    · exact Nat.le_refl _
  newest tid tblId halloc := by
    rw [newest_entered hw, if_neg]
    intro heq
    obtain ⟨rfl, rfl⟩ := TupleId.slot_inj.mp heq
    exact Nat.lt_irrefl _ halloc
  rows tid tblId halloc := by
    rw [db_entered]
    show update s.db.rows _ _ (tid.slot tblId) = _
    refine update_of_ne (fun heq => ?_) _ _
    obtain ⟨rfl, rfl⟩ :=
      TupleId.slot_inj.mp (show tid.slot tblId = (s.nextTid env tbl).slot tbl.oid from heq)
    exact Nat.lt_irrefl _ halloc
  entries _ _ _ hmem := mem_entered.mpr (.inr hmem)

end Entry

end DatabaseCatalog

end Db7
