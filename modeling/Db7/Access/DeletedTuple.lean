import Db7.Access.Heads
import Db7.Access.Visibility

/-!
# Writes to a tuple that is gone

That a tuple is deleted is kept in two places: `Table::Delete` sets a bit on the page
and links a delete record, `DeleteUndoRaw` only links the record. `Update` and
`Delete` ask the bit, `DeleteUndoRaw` asks the record. So a tuple that a transaction
knows to be deleted stays as it is exactly when the bit is set (`deleted_tuple_final`).
-/

namespace Db7

open Lib Function

namespace Db

/-- The newest version of the tuple is a delete that is the transaction's own, or was
committed at or before its start. -/
def DeletedFor (s : Db) (t : TxnId) (slot : Slot) : Prop :=
  ∃ r, s.newest slot = some r ∧ r.isDeleted = true ∧
    (isCommitted r.timestamp = false ∧ r.timestamp = (s.txns t).finish ∨
      isCommitted r.timestamp = true ∧ r.timestamp ≤ (s.txns t).start)

/-- The call returns false and leaves the row and its version chain unchanged. -/
structure Refuses (s : Db) (t : TxnId) (op : WriteOp) (slot : Slot) : Prop where
  returned : ((s.tableWrite t op slot).txns t).returned = (op, slot, false) :: (s.txns t).returned
  row : (s.tableWrite t op slot).rows slot = s.rows slot
  versions : (s.tableWrite t op slot).versions slot = s.versions slot
  chain : (s.tableWrite t op slot).chain slot = s.chain slot

variable {s : Db} {t : TxnId} {op : WriteOp} {slot : Slot}

/-- Exactly the blocked calls are refused. -/
theorem refuses_iff (hv : s.ChainsValid) :
    s.Refuses t op slot ↔ s.blocked (s.txns t) slot (s.versions slot).head? op = true := by
  have hw := written_tableWrite s t op slot
  obtain ⟨r, htxns⟩ := hw.undo
  have hreturned : ((s.tableWrite t op slot).txns t).returned =
      (op, slot, !s.blocked (s.txns t) slot (s.versions slot).head? op) :: (s.txns t).returned := by
    rw [htxns, update_self]
  constructor
  · intro h
    have heq := h.returned
    rw [hreturned] at heq
    simpa using heq
  · intro hb
    have hversions : (s.tableWrite t op slot).versions slot = s.versions slot := by
      rw [hw.versions, hb]
      rfl
    refine ⟨?_, ?_, hversions, chain_of_append (hv slot) hversions hw.undo_append⟩
    · rw [hreturned, hb]
      rfl
    · simp [tableWrite, hb]

/-- Which calls are blocked when the newest version is a delete. -/
theorem blocked_of_deletedFor (h : s.DeletedFor t slot) :
    s.blocked (s.txns t) slot (s.versions slot).head? op = true ↔ s.deletedBit slot = true ∨
      op = .deleteRaw := by
  obtain ⟨r, hr, hdeleted, hseen⟩ := h
  have hconflict : hasConflictTs r.timestamp (s.txns t).finish (s.txns t).start = false := by
    rw [hasConflictTs_eq_false]
    rcases hseen with ⟨hcommitted, htime⟩ | ⟨hcommitted, htime⟩
    · rw [← htime]
      simp [hcommitted]
    · simp [hcommitted, htime]
  obtain ⟨p, hp, hrecord⟩ := Option.bind_eq_some_iff.mp hr
  cases op <;> simp [blocked, hasConflict, hp, hrecord, hconflict, hdeleted]

end Db

namespace History

variable {h h' : History} {t : TxnId} {slot : Slot}

/-- The chains point to records, and a transaction that has not begun has none. -/
def RecordsOk (s : Db) : Prop := s.ChainsValid ∧ s.IdleEmpty

theorem recordsOk_step {a : TableAction} (hok : RecordsOk h.db) (hs : Stepped h a h') :
    RecordsOk h'.db := by
  obtain ⟨hv, hidle⟩ := hok
  cases hs with
  | begin hctl => exact ⟨Db.chainsValid_beginAlone hv hidle hctl,
      Db.idleEmpty_beginAlone hidle hctl⟩
  | @commit u hctl =>
      rw [← Db.commitThrough_all]
      exact ⟨Db.chainsValid_commitThrough hv, Db.idleEmpty_commitThrough hidle⟩
  | insert hctl =>
      exact ⟨Db.chainsValid_insertTuple hv, Db.idleEmpty_insertTuple hidle (by simp [hctl])⟩
  | @blocked t op slot hctl halloc hb =>
      have hw := Db.written_tableWrite h.db t op slot
      exact ⟨hw.chainsValid hv, hw.idleEmpty hidle (by simp [hctl])⟩
  | @write t op slot hctl halloc hb =>
      have hw := Db.written_tableWrite h.db t op slot
      exact ⟨hw.chainsValid hv, hw.idleEmpty hidle (by simp [hctl])⟩

theorem recordsOk_reachable (hr : tableSystem.Reachable h) : RecordsOk h.db := by
  refine hr.invariant (P := fun h => RecordsOk h.db) ?_ fun h a h' hok _ hs =>
    recordsOk_step hok (stepped_of_step hs)
  rintro h ⟨⟨-, -, htxns, hversions, -⟩, -⟩
  refine ⟨fun x p hp => ?_, fun t _ => by rw [htxns]⟩
  rw [hversions] at hp
  exact absurd hp List.not_mem_nil

/-- The tuple is marked on its page, and its newest version is a delete. -/
def Gone (slot : Slot) (s : Db) : Prop :=
  slot.idx < s.count slot.tbl slot.pid ∧ s.deletedBit slot = true ∧
    ∃ r, s.newest slot = some r ∧ r.isDeleted = true

/-- Every write to such a tuple is blocked. -/
theorem Gone.blocked {s : Db} (hg : Gone slot s) (u : TxnId) (op : WriteOp) :
    s.blocked (s.txns u) slot (s.versions slot).head? op = true := by
  obtain ⟨-, hbit, r, hr, hdeleted⟩ := hg
  obtain ⟨p, hp, hrecord⟩ := Option.bind_eq_some_iff.mp hr
  cases op <;> simp [Db.blocked, hp, hrecord, hbit, hdeleted]

theorem gone_step {a : TableAction} (hok : RecordsOk h.db) (hg : Gone slot h.db)
    (hs : Stepped h a h') :
    Gone slot h'.db := by
  have hblocked := hg.blocked
  obtain ⟨halloc, hbit, r, hr, hdeleted⟩ := hg
  cases hs with
  | @begin u hctl =>
      refine ⟨?_, ?_, r, ?_, hdeleted⟩
      · unfold Db.beginAlone Db.tryLatch
        split <;> exact halloc
      · unfold Db.beginAlone Db.tryLatch
        split <;> exact hbit
      · exact (Db.newest_beginAlone hok.1 hok.2 hctl slot).trans hr
  | @commit u hctl =>
      have htype := @Db.type_commitThrough h.db u (List.range (h.db.recordCount u)) slot
      rw [Db.commitThrough_all, hr] at htype
      obtain ⟨r', hr', htype'⟩ := Option.map_eq_some_iff.mp htype
      refine ⟨halloc, hbit, r', hr', ?_⟩
      unfold UndoRecord.isDeleted at hdeleted ⊢
      rwa [htype']
  | @insert u tbl pid chunk hctl =>
      have hne : slot ≠ h.db.nextTuple tbl pid := by
        rintro rfl
        exact Nat.lt_irrefl _ halloc
      refine ⟨lt_of_lt_of_le halloc (Db.count_le_insertTuple ..), hbit, r, ?_, hdeleted⟩
      exact (Db.newest_insertTuple hok.1 slot).trans ((if_neg hne).trans hr)
  | @blocked u op x hctl hx hb =>
      have hw := Db.written_tableWrite h.db u op x
      refine ⟨by rw [hw.count]; exact halloc, ?_, r, ?_, hdeleted⟩
      · simpa [Db.tableWrite, hb] using hbit
      · refine (Db.newest_of_append hok.1 ?_ hw.undo_append).trans hr
        rw [hw.versions, hb]
        rfl
  | @write u op x hctl hx hb =>
      -- the write is to another tuple
      have hne : slot ≠ x := by
        rintro rfl
        rw [hblocked] at hb
        exact Bool.noConfusion hb
      have hw := Db.written_tableWrite h.db u op x
      refine ⟨by rw [writeLogged, hw.count]; exact halloc, ?_, r, ?_, hdeleted⟩
      · show (h.db.tableWrite u op x).deletedBit slot = true
        simp only [Db.tableWrite, hb, Bool.false_eq_true, if_false]
        split
        · rw [update_of_ne hne]
          exact hbit
        · exact hbit
      · exact (hw.newest_of_ne hok.1 hne).trans hr

/-- **Writes to a deleted tuple are refused from now on exactly when the tuple is
marked on its page.** -/
theorem deleted_tuple_final (h : History) (hr : tableSystem.Reachable h) (t : TxnId) (slot : Slot)
    (hctl : (h.db.txns t).ctl = .active) (halloc : slot.idx < h.db.count slot.tbl slot.pid)
    (hdel : h.db.DeletedFor t slot) :
    (∀ h', tableSystem.Steps TSys.Always h h' → (h'.db.txns t).ctl = .active →
      ∀ op, h'.db.Refuses t op slot) ↔ h.db.deletedBit slot = true := by
  have hok := recordsOk_reachable hr
  constructor
  · intro hall
    have hrefused := hall h .refl hctl (.update [])
    rw [Db.refuses_iff hok.1, Db.blocked_of_deletedFor hdel] at hrefused
    exact hrefused.resolve_right (by simp)
  · intro hbit h' hrun _ op
    obtain ⟨r, hnewest, hdeleted, -⟩ := hdel
    have hrun' : RecordsOk h'.db ∧ Gone slot h'.db :=
      hrun.invariant (P := fun h => RecordsOk h.db ∧ Gone slot h.db)
        (fun h a h' hp _ hs => ⟨recordsOk_step hp.1 (stepped_of_step hs),
          gone_step hp.1 hp.2 (stepped_of_step hs)⟩)
        ⟨hok, halloc, hbit, r, hnewest, hdeleted⟩
    exact (Db.refuses_iff hrun'.1.1).mpr (hrun'.2.blocked t op)

/-- Transaction 0 inserts a tuple and deletes it with `op`. -/
def insertThenDelete (op : WriteOp) : List TableAction :=
  [.begin 0, .insert 0 1 1 [], .write 0 op Db.firstSlot]

theorem deleted_tuple_final_delete :
    ∃ h : History, tableSystem.exec TSys.Always empty (insertThenDelete .delete) = some h ∧
      h.db.DeletedFor 0 Db.firstSlot ∧
      ∀ h', tableSystem.Steps TSys.Always h h' → (h'.db.txns 0).ctl = .active →
        ∀ op, h'.db.Refuses 0 op Db.firstSlot := by
  let h := (tableSystem.exec TSys.Always empty (insertThenDelete .delete)).get (by decide)
  have hs : tableSystem.exec TSys.Always empty (insertThenDelete .delete) = some h :=
    (Option.some_get _).symm
  have hdel : h.db.DeletedFor 0 Db.firstSlot :=
    ⟨.initializeDelete (finishTimeOf 0) Db.firstSlot, by decide, rfl, .inl ⟨by decide, by decide⟩⟩
  exact ⟨h, hs, hdel, (deleted_tuple_final h ⟨empty, empty_init, .of_exec _ hs⟩ 0 Db.firstSlot rfl
    (by decide) hdel).mpr (by decide)⟩

/-- After `DeleteUndoRaw` the same transaction's `Update` of the tuple returns true. -/
theorem deleted_tuple_updated :
    ¬ ∀ h : History, tableSystem.Reachable h → ∀ t slot, (h.db.txns t).ctl = .active →
      h.db.DeletedFor t slot → ∀ h', tableSystem.Steps TSys.Always h h' →
        (h'.db.txns t).ctl = .active →
        ∀ op, h'.db.Refuses t op slot := by
  intro hall
  let h := (tableSystem.exec TSys.Always empty (insertThenDelete .deleteRaw)).get (by decide)
  have hs : tableSystem.exec TSys.Always empty (insertThenDelete .deleteRaw) = some h :=
    (Option.some_get _).symm
  have hdel : h.db.DeletedFor 0 Db.firstSlot :=
    ⟨.initializeDelete (finishTimeOf 0) Db.firstSlot, by decide, rfl, .inl ⟨by decide, by decide⟩⟩
  have hrefused :=
    hall h ⟨empty, empty_init, .of_exec _ hs⟩ 0 Db.firstSlot rfl hdel h .refl rfl (.update [])
  exact absurd hrefused.returned (by decide)

end History

end Db7
