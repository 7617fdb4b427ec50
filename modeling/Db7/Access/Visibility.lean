import Db7.Access.History

/-!
# What a reader is told about a tuple

`SelectIntoChunk` answers `NotVisible`, `Deleted` or `Visible`. The reference
is the history: what the reader's snapshot contains of the calls on the tuple.

* **inserts** are judged by walking the chain down to the first version of the
  snapshot, and this answer is always the snapshot's (`selectWalk_status`);
* **deletes** are judged by the head of the chain alone, whoever wrote it: the
  answer is the snapshot's exactly when the newest change is a delete just in
  case the snapshot contains one (`DeleteMarked`).
-/

namespace Db7

open Lib Function

/-- `RowStatus`. -/
inductive RowStatus
  | visible | deleted | notVisible
  deriving DecidableEq, Repr

/-- `is_deleted ? RowStatus::Deleted : RowStatus::Visible`. -/
def rowStatus (isDeleted : Bool) : RowStatus := if isDeleted then .deleted else .visible

/-- The loop of `SelectIntoChunk` over the versions newer than `start`. -/
def selectWalk (start : Nat) (isDeleted : Bool) :
    List UndoRecord → DataChunk → RowStatus × DataChunk
  | [], chunk => (rowStatus isDeleted, chunk)
  | r :: rest, chunk =>
      if isNewerThan r.timestamp start then
        match r.type with
        | .update => selectWalk start isDeleted rest (merge chunk r.delta)
        | .insert => (.notVisible, chunk)
        | .delete | .invalid => selectWalk start isDeleted rest chunk
      else (rowStatus isDeleted, chunk)

namespace Db

/-- The records reached from `versions[idx]`. -/
def chain (s : Db) (slot : Slot) : List UndoRecord := (s.versions slot).filterMap s.record

/-- Records that are only added at the end leave a chain of pointers to records as it is. -/
theorem chain_of_append {s s' : Db} {slot : Slot}
    (hv : ∀ p ∈ s.versions slot, p.idx < (s.txns p.owner).undo.length)
    (hversions : s'.versions slot = s.versions slot)
    (hundo : ∀ u, ∃ new, (s'.txns u).undo = (s.txns u).undo ++ new) :
    s'.chain slot = s.chain slot := by
  unfold chain
  rw [hversions]
  refine List.filterMap_congr fun p hp => ?_
  obtain ⟨new, happend⟩ := hundo p.owner
  unfold record
  rw [happend, List.getElem?_append_left (hv p hp)]

/-- `Table::SelectIntoChunk`. -/
def selectIntoChunk (s : Db) (x : Txn) (slot : Slot) (chunk : DataChunk) :
    RowStatus × DataChunk :=
  let chunk := readSingleIntoChunk (s.schema slot.tbl) chunk (s.rows slot)
  match s.chain slot with
  | [] => (rowStatus (s.deletedBit slot), chunk)
  | head :: rest =>
      if head.timestamp = x.finish then (rowStatus head.isDeleted, chunk)
      else selectWalk x.start head.isDeleted (head :: rest) chunk

end Db

namespace History

/-- The calls of `u` are in the snapshot of `t`: its own, and those committed
at or before its start. -/
def inSnapshot (h : History) (t u : TxnId) : Bool :=
  u = t || (h.db.txns u).commitTime.any fun c => c ≤ (h.db.txns t).start

/-- The insert of the tuple is in the snapshot; a tuple stored before the run
has none. -/
def insertVisible (h : History) (t : TxnId) (slot : Slot) : Bool :=
  (h.eventsOf slot).all fun e => !e.change.isInsert || h.inSnapshot t e.ptr.owner

/-- The snapshot contains a delete of the tuple. -/
def deleteVisible (h : History) (t : TxnId) (slot : Slot) : Bool :=
  h.initial.deletedBit slot ||
    (h.eventsOf slot).any fun e => e.change.isDelete && h.inSnapshot t e.ptr.owner

/-- What a snapshot read has to answer. -/
def snapshotStatus (h : History) (t : TxnId) (slot : Slot) : RowStatus :=
  if h.insertVisible t slot then rowStatus (h.deleteVisible t slot) else .notVisible

/-- The newest change tells whether the snapshot contains a delete. -/
structure DeleteMarked (h : History) (t : TxnId) (slot : Slot) : Prop where
  /-- It is not a delete that only others can see. -/
  noForeignDelete : ∀ e, (h.eventsOf slot).head? = some e → e.change.isDelete = true →
    h.deleteVisible t slot = true
  /-- It does not cover up an earlier delete. -/
  notBuried : ∀ e, (h.eventsOf slot).head? = some e → h.deleteVisible t slot = true →
    e.change.isDelete = true

/-! ## The reader's view of one record -/

section Reader

variable {h : History} (hr : tableSystem.ReachableBy (HandsOutBelow signBit) h) {t : TxnId}
  (ht : (h.db.txns t).ctl = .active)

include hr

theorem commitInv : Db.CommitInv signBit h.db :=
  Db.commitInv_reachable (by decide) (reachable_db hr).1

theorem chainInv : h.db.ChainInv := Db.chainInv_reachable (reachable_db hr).1

/-- Another transaction is in the snapshot when its records are committed at
or before the start. -/
theorem inSnapshot_iff {p : RecPtr} (hp : h.db.Valid p) (hne : p.owner ≠ t) :
    h.inSnapshot t p.owner = true ↔ h.db.CommittedBy (h.db.txns t).start p := by
  have hc := commitInv hr
  simp only [inSnapshot, hne, decide_false, Bool.false_or, Option.any_eq_true, decide_eq_true_eq]
  constructor
  · rintro ⟨c, hcommit, hle⟩
    -- no call is under way, so a commit time means that every record has it
    have hctl : (h.db.txns p.owner).ctl = .committed c := by
      rcases (reachable_db hr).2.ctl p.owner with hi | hi | ⟨c', hi⟩ <;>
        simp [Txn.commitTime, hi] at hcommit
      rw [hi, hcommit]
    have hstamp : h.db.stamp p = c := by simp [Db.stamp, Txn.stampAt, hctl]
    have hlt := lt_of_lt_of_le (hc.below (p.owner, true) c hcommit) hc.time_le
    exact ⟨hstamp ▸ isCommitted_of_lt hlt, hstamp ▸ hle⟩
  · rintro ⟨hcom, hle⟩
    exact ⟨_, Db.commitTime_of_isCommitted hc (Db.begun_of_valid hc hp) hcom, hle⟩

/-- Below a version of the snapshot everything is in the snapshot. -/
theorem inSnapshot_of_above {p q : RecPtr} (hp : h.db.Valid p) (hq : h.db.Valid q)
    (ha : h.db.Above p q) (hin : h.inSnapshot t p.owner = true) :
    h.inSnapshot t q.owner = true := by
  have hc := commitInv hr
  by_cases ho : p.owner = q.owner
  · rwa [← ho]
  · rw [Db.Above, if_neg ho] at ha
    by_cases hqt : q.owner = t
    · simp [inSnapshot, hqt]
    · refine (inSnapshot_iff hr hq hqt).mpr ⟨ha.1, ?_⟩
      by_cases hpt : p.owner = t
      · exact hpt ▸ ha.2
      · obtain ⟨hcom, hle⟩ := (inSnapshot_iff hr hp hpt).mp hin
        have hlt := (hc.ok p.owner).commit _
          (Db.commitTime_of_isCommitted hc (Db.begun_of_valid hc hp) hcom)
        exact le_trans ha.2 (le_trans (Nat.le_of_lt hlt) hle)

include ht

theorem start_lt : (h.db.txns t).start < signBit :=
  lt_of_lt_of_le ((commitInv hr).below (t, false) _ (by simp [Db.handedOut, ht]))
    (commitInv hr).time_le

/-- The walk passes over exactly the other transactions' versions outside the
snapshot. -/
theorem isNewerThan_iff {p : RecPtr} (hp : h.db.Valid p) (hne : p.owner ≠ t) :
    isNewerThan (h.db.stamp p) (h.db.txns t).start = !h.inSnapshot t p.owner := by
  have hc := commitInv hr
  rw [Bool.eq_iff_iff, Bool.not_eq_true', ← Bool.not_eq_true, inSnapshot_iff hr hp hne]
  simp only [isNewerThan, decide_eq_true_eq, Db.CommittedBy, not_and, Nat.not_le, gt_iff_lt]
  refine ⟨fun hlt _ => hlt, fun himp => ?_⟩
  cases hcom : isCommitted (h.db.stamp p) with
  | true => exact himp hcom
  | false =>
      have := start_lt hr ht
      simp only [isCommitted, decide_eq_false_iff_not, not_lt] at hcom
      omega

/-- The reader recognises its own versions by its finish time. -/
theorem stamp_eq_finish_iff {p : RecPtr} (hp : h.db.Valid p) :
    h.db.stamp p = (h.db.txns t).finish ↔ p.owner = t := by
  have hc := commitInv hr
  constructor
  · intro heq
    refine Db.finish_inj hc (Db.begun_of_valid hc hp) (by simp [ht]) ?_
    rw [← Db.stamp_of_not_isCommitted hc, heq]
    rw [heq, (hc.ok t).finish (by simp [ht])]
    exact isCommitted_finishTimeOf (start_lt hr ht)
  · rintro rfl
    simp [Db.stamp, Txn.stampAt, ht]

/-- Above a version of the reader only its own stand. -/
theorem own_of_above {p q : RecPtr} (ha : h.db.Above p q) (hq : q.owner = t) : p.owner = t := by
  by_contra hpt
  rw [Db.Above, if_neg (by rw [hq]; exact hpt)] at ha
  have hstamp : h.db.stamp q = (h.db.txns t).finish := by
    subst hq
    simp [Db.stamp, Txn.stampAt, ht]
  have := ha.1
  rw [hstamp, ((commitInv hr).ok t).finish (by simp [ht]),
    isCommitted_finishTimeOf (start_lt hr ht)] at this
  simp at this

end Reader

/-! ## The chain of a tuple beside its history -/

/-- The record of a call. -/
def Matches (h : History) (e : Event) (r : UndoRecord) : Prop :=
  h.db.record e.ptr = some r ∧ r.type = e.change.type

theorem mem_of_mem_eventsOf {h : History} {slot : Slot} {e : Event} (he : e ∈ h.eventsOf slot) :
    e ∈ h.events ∧ e.slot = slot := by
  simpa [eventsOf] using he

theorem forall₂_chain {h : History} (hi : HistoryInv h) (slot : Slot) :
    List.Forall₂ h.Matches (h.eventsOf slot) (h.db.chain slot) := by
  have hrec : ∀ e ∈ h.eventsOf slot, ∃ r, h.Matches e r := fun e he =>
    hi.records e (mem_of_mem_eventsOf he).1
  rw [Db.chain, hi.chain]
  generalize h.eventsOf slot = es at hrec ⊢
  induction es with
  | nil => exact .nil
  | cons e rest ih =>
      obtain ⟨r, hr, ht⟩ := hrec e List.mem_cons_self
      rw [List.map_cons, List.filterMap_cons, hr]
      exact .cons ⟨hr, ht⟩ (ih fun e' he' => hrec e' (List.mem_cons_of_mem _ he'))

/-- The walk answers `NotVisible` exactly when an insert is outside the
snapshot. -/
theorem selectWalk_status {h : History} {start : Nat} {isDeleted : Bool} (sees : Event → Bool)
    {es : List Event} {rs : List UndoRecord} (hm : List.Forall₂ h.Matches es rs)
    (hnewer : ∀ e ∈ es, isNewerThan (h.db.stamp e.ptr) start = !sees e)
    (hstamp : ∀ e r, h.Matches e r → r.timestamp = h.db.stamp e.ptr)
    (hbelow : es.Pairwise fun a b => sees a = true → sees b = true) (chunk : DataChunk) :
    (selectWalk start isDeleted rs chunk).1 =
      if es.all fun e => !e.change.isInsert || sees e then rowStatus isDeleted
      else .notVisible := by
  induction hm generalizing chunk with
  | nil => rfl
  | @cons e r es rs her _ ih =>
      obtain ⟨hbelow, hrest⟩ := List.pairwise_cons.mp hbelow
      have hn := hnewer e List.mem_cons_self
      have ih := ih (fun e' he' => hnewer e' (List.mem_cons_of_mem _ he')) hrest
      rw [← hstamp e r her] at hn
      cases hs : sees e with
      | true =>
          have hall : es.all (fun e => !e.change.isInsert || sees e) = true := by
            refine List.all_eq_true.mpr fun e' he' => ?_
            simp [hbelow e' he' hs]
          simp [selectWalk, hn, hs, hall]
      | false =>
          have ht := her.2
          cases hc : e.change with
          | inserted c row => simp [selectWalk, hn, hs, hc, ht, Change.type, Change.isInsert]
          | updated c => simp [selectWalk, hn, hs, hc, ht, Change.type, Change.isInsert, ih]
          | deleted => simp [selectWalk, hn, hs, hc, ht, Change.type, Change.isInsert, ih]

section Reader

variable {h : History} (hr : tableSystem.ReachableBy (HandsOutBelow signBit) h) {t : TxnId}
  (ht : (h.db.txns t).ctl = .active)

include hr

theorem valid_of_mem {slot : Slot} {e : Event} (he : e ∈ h.eventsOf slot) :
    h.db.Valid e.ptr := by
  refine (chainInv hr).valid slot _ ?_
  rw [(historyInv_reachable hr).chain]
  exact List.mem_map_of_mem he

/-- The calls on a tuple, newest first, are ordered like their records. -/
theorem pairwise_above (slot : Slot) :
    (h.eventsOf slot).Pairwise fun a b => h.db.Above a.ptr b.ptr := by
  have := (chainInv hr).ordered slot
  rwa [(historyInv_reachable hr).chain, List.pairwise_map] at this

/-- Going down the history of a tuple, once a call is in the snapshot all
older ones are. -/
theorem pairwise_inSnapshot (slot : Slot) :
    (h.eventsOf slot).Pairwise fun a b =>
      h.inSnapshot t a.ptr.owner = true → h.inSnapshot t b.ptr.owner = true :=
  (pairwise_above hr slot).imp_of_mem fun ha hb habove =>
    inSnapshot_of_above hr (valid_of_mem hr ha) (valid_of_mem hr hb) habove

theorem timestamp_of_matches {e : Event} {r : UndoRecord} (hm : h.Matches e r) :
    r.timestamp = h.db.stamp e.ptr :=
  Db.record_timestamp (commitInv hr) hm.1

include ht

/-- A head that is not the reader's own has none of the reader's below it. -/
theorem foreign_of_head {slot : Slot} {e : Event} {es : List Event}
    (hof : h.eventsOf slot = e :: es) (hne : e.ptr.owner ≠ t) :
    ∀ e' ∈ h.eventsOf slot, e'.ptr.owner ≠ t := by
  have hord := pairwise_above hr slot
  rw [hof] at hord ⊢
  intro e' he'
  rcases List.mem_cons.mp he' with rfl | he'
  · exact hne
  · exact fun ho => hne (own_of_above hr ht ((List.pairwise_cons.mp hord).1 e' he') ho)

/-- The answer of `SelectIntoChunk`: the insert is judged by the snapshot, the
delete by the newest change. -/
theorem selectIntoChunk_status (slot : Slot) (chunk : DataChunk) :
    (h.db.selectIntoChunk (h.db.txns t) slot chunk).1 =
      if h.insertVisible t slot then
        rowStatus (((h.eventsOf slot).head?.map fun e => e.change.isDelete).getD
          (h.initial.deletedBit slot))
      else .notVisible := by
  have hi := historyInv_reachable hr
  have hm := forall₂_chain hi slot
  have hdel : ∀ {e r}, h.Matches e r → r.isDeleted = e.change.isDelete := by
    rintro e r ⟨-, htype⟩
    cases hc : e.change <;> simp [UndoRecord.isDeleted, htype, hc, Change.type, Change.isDelete]
  simp only [Db.selectIntoChunk]
  cases hof : h.eventsOf slot with
  | nil =>
      rw [hof, List.forall₂_nil_left_iff] at hm
      simp [hm, insertVisible, hof, hi.bit slot hof]
  | cons e es =>
      rw [hof] at hm
      obtain ⟨r, rs, her, hrs, hchain⟩ := List.forall₂_cons_left_iff.mp hm
      have hv := @valid_of_mem h hr slot e (by simp [hof])
      have hown := stamp_eq_finish_iff hr ht hv
      simp only [hchain, timestamp_of_matches hr her, hown]
      split
      · rename_i ho
        have hsees := pairwise_inSnapshot hr (t := t) slot
        rw [hof] at hsees
        have hvis : h.insertVisible t slot = true := by
          refine List.all_eq_true.mpr fun e' he' => ?_
          rw [hof] at he'
          rcases List.mem_cons.mp he' with rfl | he'
          · simp [inSnapshot, ho]
          · simp [(List.pairwise_cons.mp hsees).1 e' he' (by simp [inSnapshot, ho])]
        simp [hvis, hdel her]
      · rename_i hne
        rw [selectWalk_status (fun e => h.inSnapshot t e.ptr.owner) (hchain ▸ hm)
          (fun e' he' => isNewerThan_iff hr ht (valid_of_mem hr (hof ▸ he'))
            (foreign_of_head hr ht hof hne e' (hof ▸ he')))
          (fun e r hm => timestamp_of_matches hr hm) (hof ▸ pairwise_inSnapshot hr slot)]
        simp [insertVisible, hof, hdel her]

end Reader

theorem rowStatus_inj {a b : Bool} : rowStatus a = rowStatus b ↔ a = b := by
  cases a <;> cases b <;> decide

/-- What `selectIntoChunk_status_iff` says, where `Commit` walks over the records. -/
theorem status_iff_deleteMarked {h : History}
    (hr : tableSystem.ReachableBy (HandsOutBelow signBit) h) {t : TxnId}
    (ht : (h.db.txns t).ctl = .active) (slot : Slot) (chunk : DataChunk) :
    (h.db.selectIntoChunk (h.db.txns t) slot chunk).1 = h.snapshotStatus t slot ↔
      (h.insertVisible t slot = true → h.DeleteMarked t slot) := by
  rw [selectIntoChunk_status hr ht, snapshotStatus]
  cases hvis : h.insertVisible t slot with
  | false => simp
  | true =>
      simp only [if_true, rowStatus_inj, forall_const]
      cases hof : h.eventsOf slot with
      | nil =>
          have hmark : h.DeleteMarked t slot := ⟨by simp [hof], by simp [hof]⟩
          simp [hmark, deleteVisible, hof]
      | cons e es =>
          simp only [List.head?_cons, Option.map_some, Option.getD_some]
          constructor
          · intro heq
            refine ⟨fun e' he' hd => ?_, fun e' he' hd => ?_⟩ <;>
              (simp only [hof, List.head?_cons, Option.some.injEq] at he'; subst he')
            · rw [← heq, hd]
            · rw [heq, hd]
          · intro hmark
            rw [Bool.eq_iff_iff]
            exact ⟨hmark.noForeignDelete e (by simp [hof]), hmark.notBuried e (by simp [hof])⟩

/-- **When the answer is the snapshot's.** Where every `Commit` visits all of its
records, `SelectIntoChunk` answers for the reader's snapshot exactly when the
tuple's insert is outside it or the newest change of the tuple is a delete just in
case the snapshot contains one. -/
theorem selectIntoChunk_status_iff {memory : UndoMemory} {x : WithUndo History}
    (hr : (tableHost.withUndo memory).ReachableBy
      (tableHost.CommitsWhole memory (HandsOutBelow signBit)) x)
    {t : TxnId} (ht : (x.state.db.txns t).ctl = .active) (slot : Slot) (chunk : DataChunk) :
    (x.state.db.selectIntoChunk (x.state.db.txns t) slot chunk).1 = x.state.snapshotStatus t slot ↔
      (x.state.insertVisible t slot = true → x.state.DeleteMarked t slot) :=
  status_iff_deleteMarked (TxnHost.reachable_of_commitsWhole hr).1 ht slot chunk

/-- No tables, no transactions, no calls. -/
def empty : History := ⟨Db.empty, [], Db.empty⟩

theorem empty_init : empty.Init := ⟨Db.empty_init, rfl, rfl, fun _ _ => rfl⟩

/-- Transaction 0 inserts a tuple, transaction 1 begins after that, and
transaction 2 deletes the tuple without committing. -/
def deleteInFlight : List TableAction :=
  [.begin 0, .insert 0 1 1 [], .commit 0, .begin 1, .begin 2, .write 2 .deleteRaw Db.firstSlot]

theorem selectIntoChunk_status_iff_deleteInFlight :
    ∃ x : WithUndo History, (tableHost.withUndo .zeroed).ReachableBy
        (tableHost.CommitsWhole .zeroed (HandsOutBelow signBit)) x ∧
      ¬ x.state.DeleteMarked 1 Db.firstSlot ∧
      (x.state.db.selectIntoChunk (x.state.db.txns 1) Db.firstSlot []).1 ≠ x.state.snapshotStatus 1
        Db.firstSlot := by
  let h := (tableSystem.exec (HandsOutBelow signBit) empty deleteInFlight).get (by decide)
  have hs : tableSystem.exec (HandsOutBelow signBit) empty deleteInFlight = some h :=
    (Option.some_get _).symm
  have hmark : ¬ h.DeleteMarked 1 Db.firstSlot := fun hm =>
    absurd (hm.noForeignDelete ⟨⟨2, 0⟩, Db.firstSlot, .deleted⟩ rfl rfl) (by decide)
  have hvisible : h.insertVisible 1 Db.firstSlot = true := by decide
  obtain ⟨calls, hr, -⟩ := tableHost.exists_reachable ⟨empty, empty_init, .of_exec _ hs⟩
  have hiff := selectIntoChunk_status_iff hr (t := 1) rfl Db.firstSlot []
  exact ⟨⟨h, calls⟩, hr, hmark, fun heq => hmark (hiff.mp heq hvisible)⟩

/-- The reader is told that the tuple is deleted, by a delete that is neither
its own nor committed. -/
theorem deleteInFlight_reported :
    ¬ ∀ (memory : UndoMemory) (x : WithUndo History),
      (tableHost.withUndo memory).ReachableBy (tableHost.CommitsWhole memory TSys.Always) x →
      ∀ t slot chunk, (x.state.db.txns t).ctl = .active →
        (x.state.db.selectIntoChunk (x.state.db.txns t) slot chunk).1 =
          x.state.snapshotStatus t slot := by
  intro hall
  let h := (tableSystem.exec TSys.Always empty deleteInFlight).get (by decide)
  have hs : tableSystem.exec TSys.Always empty deleteInFlight = some h :=
    (Option.some_get _).symm
  have hne : (h.db.selectIntoChunk (h.db.txns 1) Db.firstSlot []).1 ≠
      h.snapshotStatus 1 Db.firstSlot := by decide
  obtain ⟨calls, hr, -⟩ := tableHost.exists_reachable ⟨empty, empty_init, .of_exec _ hs⟩
  exact hne (hall _ _ hr 1 Db.firstSlot [] rfl)

end History

end Db7
