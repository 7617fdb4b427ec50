import Db7.Access.Table

/-!
# The newest version of a tuple

The heads of the version chains, and what the calls of tables and transactions do to
them:

* **insert** (`newest_insertTuple`): one new head, the others as they are;
* **writes** (`written_tableWrite`): a record more, and unless the write is blocked
  it becomes the head of its tuple;
* **begin** and **commit** (`newest_beginAlone`, `type_commitThrough`): at most other
  timestamps.
-/

namespace Db7

open Function

namespace Db

/-- The head of a version chain. -/
def newest (s : Db) (slot : Slot) : Option UndoRecord := (s.versions slot).head?.bind s.record

/-- `TransactionUtil::HasConflict` of a version with `t`. -/
def conflicts (s : Db) (t : TxnId) (undo : UndoRecord) : Bool :=
  hasConflictTs undo.timestamp (s.txns t).finish (s.txns t).start

/-- The version chains point to records. -/
def ChainsValid (s : Db) : Prop := ∀ x, ∀ p ∈ s.versions x, p.idx < (s.txns p.owner).undo.length

theorem ChainsValid.heads {s : Db} (h : s.ChainsValid) : s.HeadsValid :=
  fun x p hp => h x p (List.mem_of_head? hp)

section Heads

variable {s s' : Db} {t : TxnId} {tbl pid : Nat} {chunk : DataChunk} {slot : Slot}

/-- Records are only added at the end. -/
theorem newest_of_append (hv : s.ChainsValid) (hversions : s'.versions slot = s.versions slot)
    (hundo : ∀ u, ∃ new, (s'.txns u).undo = (s.txns u).undo ++ new) :
    s'.newest slot = s.newest slot := by
  unfold newest
  rw [hversions]
  cases hp : (s.versions slot).head? with
  | none => rfl
  | some p =>
      obtain ⟨new, hnew⟩ := hundo p.owner
      show (s'.txns p.owner).undo[p.idx]? = (s.txns p.owner).undo[p.idx]?
      rw [hnew, List.getElem?_append_left (hv.heads slot p hp)]

theorem chainsValid_of_append (hv : s.ChainsValid)
    (hchain : ∀ x, ∀ p ∈ s'.versions x, p ∈ s.versions x ∨ p.idx < (s'.txns p.owner).undo.length)
    (hundo : ∀ u, ∃ new, (s'.txns u).undo = (s.txns u).undo ++ new) : s'.ChainsValid := by
  intro x p hp
  rcases hchain x p hp with hold | hnew
  · obtain ⟨new, happend⟩ := hundo p.owner
    have := hv x p hold
    rw [happend, List.length_append]
    omega
  · exact hnew

/-- The undo buffers after a call that adds records of `t`. -/
theorem undo_setTxn {x : Txn} {new : List UndoRecord}
    (h : x.undo = (s.txns t).undo ++ new) (u : TxnId) :
    ∃ new, ((s.setTxn t x).txns u).undo = (s.txns u).undo ++ new := by
  by_cases hu : u = t
  · subst hu
    exact ⟨new, by simp [setTxn, h]⟩
  · exact ⟨[], by simp [setTxn, hu]⟩

/-- The tuple that `Table::Insert` fills. -/
def nextTuple (s : Db) (tbl pid : Nat) : Slot := ⟨tbl, pid, s.count tbl pid⟩

theorem undo_insertTuple (u : TxnId) : ∃ new, ((s.insertTuple t tbl pid chunk).txns u).undo =
    (s.txns u).undo ++ new :=
  undo_setTxn (x := { s.txns t with undo := _ }) rfl u

theorem chainsValid_insertTuple (hv : s.ChainsValid) :
    (s.insertTuple t tbl pid chunk).ChainsValid := by
  refine chainsValid_of_append hv ?_ undo_insertTuple
  intro x p hp
  by_cases hx : x = s.nextTuple tbl pid
  · refine .inr ?_
    subst hx
    obtain rfl : p = ⟨t, (s.txns t).undo.length⟩ := by simpa [insertTuple, nextTuple] using hp
    simp [insertTuple, setTxn]
  · refine .inl ?_
    have hversions : (s.insertTuple t tbl pid chunk).versions x = s.versions x := by
      show update s.versions (s.nextTuple tbl pid) _ x = _
      rw [update_of_ne hx]
    rwa [hversions] at hp

/-- An insert gives its tuple a head and leaves the others as they are. -/
theorem newest_insertTuple (hv : s.ChainsValid) (x : Slot) :
    (s.insertTuple t tbl pid chunk).newest x =
      if x = s.nextTuple tbl pid then some (.initializeInsert (s.txns t).finish x)
        else s.newest x := by
  split
  · subst x
    simp [newest, insertTuple, nextTuple, record, setTxn]
  · rename_i hx
    refine newest_of_append hv ?_ undo_insertTuple
    show update s.versions (s.nextTuple tbl pid) _ x = _
    rw [update_of_ne hx]

theorem count_insertTuple (a b : Nat) : (s.insertTuple t tbl pid chunk).count a b =
    if a = tbl ∧ b = pid then s.count tbl pid + 1 else s.count a b := by
  show update s.count tbl (update (s.count tbl) pid (s.count tbl pid + 1)) a b = _
  by_cases ha : a = tbl
  · subst ha
    by_cases hb : b = pid <;> simp [hb]
  · simp [ha]

theorem txns_insertTuple (u : TxnId) :
    ((s.insertTuple t tbl pid chunk).txns u).start = (s.txns u).start ∧
    ((s.insertTuple t tbl pid chunk).txns u).finish = (s.txns u).finish ∧
    ((s.insertTuple t tbl pid chunk).txns u).ctl = (s.txns u).ctl := by
  by_cases hu : u = t
  · subst hu
    simp [insertTuple, setTxn]
  · simp [insertTuple, setTxn, hu]

/-- What a write does: it adds a record of `t`, and when it is not blocked, puts the
record at the head of the chain of its tuple. -/
structure Written (s : Db) (t : TxnId) (op : WriteOp) (slot : Slot) (s' : Db) : Prop where
  undo : ∃ r, s'.txns = update s.txns t { s.txns t with
    undo := (s.txns t).undo ++ [r]
    returned :=
      (op, slot, !s.blocked (s.txns t) slot (s.versions slot).head? op) :: (s.txns t).returned }
  versions : s'.versions = if s.blocked (s.txns t) slot (s.versions slot).head? op then s.versions
    else update s.versions slot (⟨t, (s.txns t).undo.length⟩ :: s.versions slot)
  count : s'.count = s.count
  schema : s'.schema = s.schema

theorem written_tableWrite (s : Db) (t : TxnId) (op : WriteOp) (slot : Slot) :
    s.Written t op slot (s.tableWrite t op slot) := by
  cases hb : s.blocked (s.txns t) slot (s.versions slot).head? op with
  | true =>
      refine ⟨⟨(newRecord (s.txns t).finish slot op).invalidate, ?_⟩, ?_, ?_, ?_⟩ <;>
        simp [tableWrite, setTxn, hb]
  | false =>
      refine ⟨⟨{ newRecord (s.txns t).finish slot op with delta := (s.writePage slot op).1 }, ?_⟩,
        ?_, ?_, ?_⟩ <;>
        simp [tableWrite, setTxn, hb]

namespace Written

variable {op : WriteOp}

theorem undo_append (h : s.Written t op slot s') (u : TxnId) :
    ∃ new, (s'.txns u).undo = (s.txns u).undo ++ new := by
  obtain ⟨r, htxns⟩ := h.undo
  rw [htxns]
  exact undo_setTxn (x := { s.txns t with undo := _, returned := _ }) rfl u

/-- A write leaves the times of all transactions and where they stand. -/
theorem txns (h : s.Written t op slot s') (u : TxnId) : (s'.txns u).start = (s.txns u).start ∧
    (s'.txns u).finish = (s.txns u).finish ∧ (s'.txns u).ctl = (s.txns u).ctl := by
  obtain ⟨r, htxns⟩ := h.undo
  rw [htxns]
  by_cases hu : u = t
  · subst hu
    simp
  · simp [hu]

/-- A write changes at most the chain of its tuple. -/
theorem versions_of_ne (h : s.Written t op slot s') {x : Slot} (hx : x ≠ slot) :
    s'.versions x = s.versions x := by
  rw [h.versions]
  split
  · rfl
  · rw [update_of_ne hx]

theorem chainsValid (h : s.Written t op slot s') (hv : s.ChainsValid) : s'.ChainsValid := by
  refine chainsValid_of_append hv ?_ h.undo_append
  intro x p hp
  by_cases hx : x = slot
  · subst hx
    rw [h.versions] at hp
    split at hp
    · exact .inl hp
    · rw [update_self, List.mem_cons] at hp
      rcases hp with rfl | hold
      · obtain ⟨r, htxns⟩ := h.undo
        refine .inr ?_
        simp [htxns]
      · exact .inl hold
  · rw [h.versions_of_ne hx] at hp
    exact .inl hp

/-- A write leaves the heads of the other tuples as they are. -/
theorem newest_of_ne (h : s.Written t op slot s') (hv : s.ChainsValid) {x : Slot} (hx : x ≠ slot) :
    s'.newest x = s.newest x :=
  newest_of_append hv (h.versions_of_ne hx) h.undo_append

end Written

/-- `DeleteUndoRaw` succeeds when the head does not conflict and is no delete. -/
theorem blocked_deleteRaw {slot : Slot} (hv : s.ChainsValid) :
    s.blocked (s.txns t) slot (s.versions slot).head? .deleteRaw =
      (s.newest slot).any fun undo => s.conflicts t undo || undo.isDeleted := by
  unfold blocked hasConflict newest
  dsimp only
  cases hp : (s.versions slot).head? with
  | none => rfl
  | some p =>
      obtain ⟨r, hr⟩ : ∃ r, s.record p = some r :=
        ⟨_, List.getElem?_eq_getElem (hv.heads slot p hp)⟩
      simp [hr, conflicts]

theorem newest_beginAlone (hv : s.ChainsValid) (hidle : s.IdleEmpty)
    (hctl : (s.txns t).ctl = .idle) (x : Slot) :
    (s.beginAlone t).newest x = s.newest x :=
  newest_of_append hv (congrFun versions_beginAlone x) fun u =>
    ⟨[], by simp [undo_beginAlone hidle hctl u]⟩

theorem chainsValid_beginAlone (hv : s.ChainsValid) (hidle : s.IdleEmpty)
    (hctl : (s.txns t).ctl = .idle) :
    (s.beginAlone t).ChainsValid := by
  intro x p hp
  rw [versions_beginAlone] at hp
  rw [undo_beginAlone hidle hctl]
  exact hv x p hp

theorem idleEmpty_insertTuple (hidle : s.IdleEmpty) (ht : (s.txns t).ctl ≠ .idle) :
    (s.insertTuple t tbl pid chunk).IdleEmpty := by
  refine idleEmpty_of_append (t := t) hidle (fun u hu => ?_) (fun u hu => ?_) ?_
  · rwa [(txns_insertTuple u).2.2] at hu
  · simp [insertTuple, setTxn, hu]
  · rwa [(txns_insertTuple t).2.2]

theorem Written.idleEmpty {op : WriteOp} (h : s.Written t op slot s') (hidle : s.IdleEmpty)
    (ht : (s.txns t).ctl ≠ .idle) : s'.IdleEmpty := by
  obtain ⟨r, htxns⟩ := h.undo
  refine idleEmpty_of_append (t := t) hidle (fun u hu => ?_) (fun u hu => ?_) ?_
  · rwa [(h.txns u).2.2] at hu
  · rw [htxns, update_of_ne hu]
  · rwa [(h.txns t).2.2]

variable {stops : List Nat}

theorem undo_commitThrough_of_ne {u : TxnId} (h : u ≠ t) :
    ((s.commitThrough t stops).txns u).undo = (s.txns u).undo := by
  simp [commitThrough, setTxn, h]

/-- A commit changes timestamps only. -/
theorem types_commitThrough (u : TxnId) :
    ((s.commitThrough t stops).txns u).undo.map UndoRecord.type =
    (s.txns u).undo.map UndoRecord.type := by
  by_cases hu : u = t
  · subst hu
    simp only [commitThrough, setTxn_txns, update_self]
    exact Lib.map_foldl_modify (fun _ => by rfl) ..
  · rw [undo_commitThrough_of_ne hu]

theorem length_commitThrough (u : TxnId) :
    ((s.commitThrough t stops).txns u).undo.length = (s.txns u).undo.length := by
  have htypes : ((s.commitThrough t stops).txns u).undo.map UndoRecord.type =
      (s.txns u).undo.map UndoRecord.type := types_commitThrough u
  simpa using congrArg List.length htypes

theorem idleEmpty_commitThrough (hidle : s.IdleEmpty) : (s.commitThrough t stops).IdleEmpty := by
  refine idleEmpty_of_append (t := t) hidle (fun u hu => ?_)
    (fun u hu => undo_commitThrough_of_ne hu) ?_
  · by_cases heq : u = t
    · subst heq
      simp [commitThrough, setTxn] at hu
    · simpa [commitThrough, setTxn, heq] using hu
  · simp [commitThrough, setTxn]

theorem chainsValid_commitThrough (hv : s.ChainsValid) : (s.commitThrough t stops).ChainsValid := by
  intro x p hp
  rw [length_commitThrough]
  exact hv x p hp

theorem type_commitThrough (x : Slot) :
    ((s.commitThrough t stops).newest x).map UndoRecord.type =
      (s.newest x).map UndoRecord.type := by
  have hversions : (s.commitThrough t stops).versions = s.versions := rfl
  unfold newest
  rw [hversions]
  cases (s.versions x).head? with
  | none => rfl
  | some p =>
      have htypes : ((s.commitThrough t stops).txns p.owner).undo.map UndoRecord.type =
          (s.txns p.owner).undo.map UndoRecord.type := types_commitThrough p.owner
      have hget := congrArg (fun types => types[p.idx]?) htypes
      simpa only [Option.bind_some, record, List.getElem?_map] using hget

/-! ## The times of begin and commit -/

variable {u : TxnId}

theorem txns_beginAlone_of_ne (h : u ≠ t) : (s.beginAlone t).txns u = s.txns u := by
  have hbegin : (s.beginTransaction t).txns u = s.txns u := update_of_ne h _ _
  unfold beginAlone tryLatch
  split
  · exact hbegin
  · exact (update_of_ne h _ _).trans hbegin

theorem txns_beginAlone_self : ((s.beginAlone t).txns t).start = s.time ∧
    ((s.beginAlone t).txns t).finish = finishTimeOf s.time ∧
      ((s.beginAlone t).txns t).ctl ≠ .idle := by
  have hbegin : (s.beginTransaction t).txns t = ⟨.spinning, s.time, finishTimeOf s.time, [], []⟩ :=
    update_self ..
  unfold beginAlone tryLatch
  split
  · rw [hbegin]
    simp
  · have hself :
        ((s.beginTransaction t).setTxn t
          { (s.beginTransaction t).txns t with ctl := .active }).txns t =
        { (s.beginTransaction t).txns t with ctl := .active } := update_self ..
    rw [hself, hbegin]
    simp

theorem time_beginAlone : (s.beginAlone t).time = u64 (s.time + 1) := by
  unfold beginAlone tryLatch
  split <;> rfl

theorem txns_commitThrough {stops : List Nat} :
    ((s.commitThrough t stops).txns u).start = (s.txns u).start ∧
    ((s.commitThrough t stops).txns u).finish = (s.txns u).finish ∧
    (((s.commitThrough t stops).txns u).ctl = .active → u ≠ t ∧ (s.txns u).ctl = .active) ∧
    (((s.commitThrough t stops).txns u).ctl = .idle ↔ u ≠ t ∧ (s.txns u).ctl = .idle) := by
  by_cases h : u = t
  · subst h
    simp [commitThrough, setTxn]
  · simp [commitThrough, setTxn, h]

end Heads

end Db

end Db7
