import Db7.Access.Visibility
import Db7.Catalog.FailedCalls

/-!
# Does a tuple exist?

`GetTidExists` is a second visibility test beside `SelectIntoChunk`. It asks only
whether the newest version is a delete (`isLive_eq`), whoever wrote it and whenever
it was committed. A transaction gets its snapshot's answer exactly when the newest
change gives it away (`HeadTells`): neither an insert nor a delete of another
transaction is in the way, and no delete is covered by a later change. Timestamps
play no part, so this holds of every run.
-/

namespace Db7

open Lib Function DataChunkBuilder DatabaseCatalog

namespace History

/-- The tuple belongs to the snapshot of `t`. -/
def snapshotHas (h : History) (t : TxnId) (slot : Slot) : Bool :=
  h.insertVisible t slot && !h.deleteVisible t slot

/-- The newest change of the tuple is a delete. -/
def newestDeletes (h : History) (slot : Slot) : Bool :=
  (h.eventsOf slot).head?.any fun e => e.change.isDelete

/-- The newest change of the tuple tells whether the snapshot has it. -/
structure HeadTells (h : History) (t : TxnId) (slot : Slot) : Prop where
  /-- A tuple inserted outside the snapshot is deleted by now. -/
  noForeignInsert : h.insertVisible t slot = false → h.newestDeletes slot = true
  /-- The newest change is not a delete that only others can see. -/
  noForeignDelete : h.insertVisible t slot = true → h.newestDeletes slot = true →
    h.deleteVisible t slot = true
  /-- It does not cover up an earlier delete, and no stored delete bit is without a version. -/
  notBuried : h.insertVisible t slot = true → h.deleteVisible t slot = true →
    h.newestDeletes slot = true

variable {h : History} {t : TxnId} {tid : TupleId} {tbl : Nat}

/-- The head of the chain is the record of the newest change. -/
theorem newest_eq (hi : HistoryInv h) (slot : Slot) :
    (h.db.newest slot).map UndoRecord.isDeleted = (h.eventsOf slot).head?.map fun e =>
      e.change.isDelete := by
  unfold Db.newest
  rw [hi.chain, List.head?_map]
  cases hof : (h.eventsOf slot).head? with
  | none => rfl
  | some e =>
      have he := (mem_of_mem_eventsOf (List.mem_of_head? hof)).1
      obtain ⟨r, hr, htype⟩ := hi.records e he
      show (h.db.record e.ptr).map UndoRecord.isDeleted = some e.change.isDelete
      rw [hr]
      cases hc : e.change <;> simp [UndoRecord.isDeleted, htype, hc, Change.type, Change.isDelete]

theorem isLive_eq (hi : HistoryInv h) (tid : TupleId) (tbl : Nat) :
    h.db.isLive tid tbl = !h.newestDeletes (tid.slot tbl) := by
  have hn := newest_eq hi (tid.slot tbl)
  unfold Db.isLive Db.getDelta newestDeletes
  cases hnew : h.db.newest (tid.slot tbl) <;> cases hof : (h.eventsOf (tid.slot tbl)).head? <;>
    simp_all

theorem getTidExists_singleton (s : Db) (tid : TupleId) (tbl : Nat) :
    s.getTidExists [tid] tbl = s.isLive tid tbl := by
  simp [Db.getTidExists]

/-- One tuple's test is the snapshot's answer exactly when its newest change tells. -/
theorem isLive_eq_snapshotHas_iff (hi : HistoryInv h) (t : TxnId) (tid : TupleId) (tbl : Nat) :
    h.db.isLive tid tbl = h.snapshotHas t (tid.slot tbl) ↔ h.HeadTells t (tid.slot tbl) := by
  rw [isLive_eq hi, snapshotHas]
  constructor
  · intro heq
    refine ⟨fun hv => ?_, fun hv hd => ?_, fun hv hd => ?_⟩
    · simpa [hv] using heq
    · simpa [hv, hd] using heq
    · simpa [hv, hd] using heq
  · intro hm
    cases hv : h.insertVisible t (tid.slot tbl) with
    | false => simp [hm.noForeignInsert hv]
    | true =>
        -- with the insert in the snapshot, the two kinds of delete coincide
        have hiff := Bool.eq_iff_iff.mpr ⟨hm.noForeignDelete hv, hm.notBuried hv⟩
        simp [hiff]

/-- The tuples of one table that a list of ids names, as a snapshot has them. -/
theorem getTidExists_of_headTells (hi : HistoryInv h) {tids : List TupleId}
    (hm : ∀ tid ∈ tids, h.HeadTells t (tid.slot tbl)) :
    h.db.getTidExists tids tbl = tids.any fun tid => h.snapshotHas t (tid.slot tbl) := by
  induction tids with
  | nil => rfl
  | cons tid rest ih =>
      have hhead := (isLive_eq_snapshotHas_iff hi t tid tbl).mpr (hm tid List.mem_cons_self)
      have hrest := ih fun tid' hmem => hm tid' (List.mem_cons_of_mem _ hmem)
      show (h.db.isLive tid tbl || h.db.getTidExists rest tbl) = _
      rw [hhead, hrest]
      rfl

/-- **When existence is the snapshot's.** `GetTidExists` answers for the snapshot of
`t` exactly when the newest change of the tuple tells; and then the checks of the
catalog agree with what `t` can read. -/
theorem getTidExists_iff (hr : tableSystem.Reachable h) (t : TxnId) :
    (∀ tid tbl, h.db.getTidExists [tid] tbl = h.snapshotHas t (tid.slot tbl) ↔
      h.HeadTells t (tid.slot tbl)) ∧
      ∀ (env : CatalogEnv) (s : DatabaseCatalog), s.db = h.db → ∀ oid,
        ((∀ tid ∈ s.lookup env .namespaceNspoid (buildNamespaceOidChunk oid),
            h.HeadTells t (tid.slot IndexOid.namespaceNspoid.heapTblId)) →
          answer (existsNamespace env oid) s =
            (s.lookup env .namespaceNspoid (buildNamespaceOidChunk oid)).any fun tid =>
              h.snapshotHas t (tid.slot IndexOid.namespaceNspoid.heapTblId)) ∧
        ((∀ tid ∈ s.lookup env .classReloid (buildClassOidChunk oid),
            h.HeadTells t (tid.slot IndexOid.classReloid.heapTblId)) →
          answer (existsTable env oid) s =
            (s.lookup env .classReloid (buildClassOidChunk oid)).any fun tid =>
              h.snapshotHas t (tid.slot IndexOid.classReloid.heapTblId)) := by
  have hi := historyInv_reachable hr
  refine ⟨fun tid tbl => ?_, fun env s hs oid => ⟨fun hm => ?_, fun hm => ?_⟩⟩
  · rw [getTidExists_singleton]
    exact isLive_eq_snapshotHas_iff hi t tid tbl
  · rw [answer_existsNamespace, rowExists, hs]
    exact getTidExists_of_headTells hi hm
  · rw [answer_existsTable, rowExists, hs]
    exact getTidExists_of_headTells hi hm

/-- Transaction 0 inserts a tuple without committing, and transaction 1 begins. -/
def insertInFlight : List TableAction := [.begin 0, .insert 0 1 1 [], .begin 1]

/-- The id of that tuple. -/
def firstTid : TupleId := ⟨1, 0⟩

theorem getTidExists_iff_insertInFlight :
    ∃ h : History, tableSystem.exec TSys.Always empty insertInFlight = some h ∧
      (h.db.getTidExists [firstTid] 1 = h.snapshotHas 0 (firstTid.slot 1) ∧
        h.HeadTells 0 (firstTid.slot 1)) ∧
      ¬ h.HeadTells 1 (firstTid.slot 1) := by
  let h := (tableSystem.exec TSys.Always empty insertInFlight).get (by decide)
  have hs : tableSystem.exec TSys.Always empty insertInFlight = some h := (Option.some_get _).symm
  have hreach : tableSystem.Reachable h := ⟨empty, empty_init, .of_exec _ hs⟩
  have hown : h.db.getTidExists [firstTid] 1 = h.snapshotHas 0 (firstTid.slot 1) := by decide
  have hforeign : h.db.getTidExists [firstTid] 1 ≠ h.snapshotHas 1 (firstTid.slot 1) := by decide
  refine ⟨h, hs, ⟨hown, ?_⟩, ?_⟩
  · exact ((getTidExists_iff hreach 0).1 firstTid 1).mp hown
  · exact fun hm => hforeign (((getTidExists_iff hreach 1).1 firstTid 1).mpr hm)

/-- Transaction 1 is told that a tuple exists whose insert is not committed. -/
theorem insertInFlight_exists :
    ¬ ∀ h : History, tableSystem.Reachable h → ∀ t tid tbl,
      h.db.getTidExists [tid] tbl = h.snapshotHas t (tid.slot tbl) := by
  intro hall
  let h := (tableSystem.exec TSys.Always empty insertInFlight).get (by decide)
  have hs : tableSystem.exec TSys.Always empty insertInFlight = some h := (Option.some_get _).symm
  exact absurd (hall h ⟨empty, empty_init, .of_exec _ hs⟩ 1 firstTid 1) (by decide)

end History

end Db7
