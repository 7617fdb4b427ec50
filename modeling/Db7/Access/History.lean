import Db7.Txn.WriteConflict

/-!
# Runs of whole table operations, and their history

Every call of `BeginTransaction`, `Commit`, `Table::Insert`, `Table::Update`,
`Table::Delete` and `Table::DeleteUndoRaw` is one step. Beside the database the
state keeps what the successful calls did, newest first, as the reference that
reads are compared with.

* **refinement** (`History.reachable_db`): the database of such a run is
  reached by the fine-grained system, and no call is under way;
* **chains record the history** (`HistoryInv.chain`, `HistoryInv.records`): the
  version chain of a tuple lists exactly the successful calls on it;
* **undo buffers** (`tableHost`): the same calls, with a `Commit` that stamps what
  its iterator visits.
-/

namespace Db7

open Lib Function

/-- What a successful call did to its tuple; `before` is the row's place on the
page before the insert. -/
inductive Change
  | inserted (chunk : DataChunk) (before : Row)
  | updated (chunk : DataChunk)
  | deleted

namespace Change

/-- The type of the record that the call leaves. -/
def type : Change → DeltaRecordType
  | inserted _ _ => .insert
  | updated _ => .update
  | deleted => .delete

def isInsert : Change → Bool
  | inserted _ _ => true
  | updated _ | deleted => false

def isDelete : Change → Bool
  | deleted => true
  | inserted _ _ | updated _ => false

end Change

/-- A successful call: its undo record, its tuple and what it did. -/
structure Event where
  ptr : RecPtr
  slot : Slot
  change : Change

def WriteOp.change : WriteOp → Change
  | .update chunk => .updated chunk
  | .delete | .deleteRaw => .deleted

/-- The database, the successful calls so far (newest first), and the database
as it was before the first of them. -/
structure History where
  db : Db
  events : List Event
  initial : Db

inductive TableAction
  | begin (t : TxnId)
  | commit (t : TxnId)
  | insert (t : TxnId) (tbl pid : Nat) (chunk : DataChunk)
  | write (t : TxnId) (op : WriteOp) (slot : Slot)

/-- The step with which the call begins. -/
def TableAction.start : TableAction → Action
  | .begin t => .begin t
  | .commit t => .commit t
  | .insert t tbl pid chunk => .insert t tbl pid chunk
  | .write t op slot => .write t op slot

namespace History

/-- The successful calls on a tuple, newest first. -/
def eventsOf (h : History) (slot : Slot) : List Event :=
  h.events.filter fun e => e.slot = slot

/-- `Table::Insert` and its entry in the history. -/
def insert (h : History) (t : TxnId) (tbl pid : Nat) (chunk : DataChunk) : History :=
  let slot : Slot := ⟨tbl, pid, h.db.count tbl pid⟩
  { h with
    db := h.db.insertTuple t tbl pid chunk
    events := ⟨⟨t, (h.db.txns t).undo.length⟩, slot, .inserted chunk (h.db.rows slot)⟩ ::
      h.events }

/-- A successful write and its entry in the history. -/
def writeLogged (h : History) (t : TxnId) (op : WriteOp) (slot : Slot) : History :=
  { h with
    db := h.db.tableWrite t op slot
    events := ⟨⟨t, (h.db.txns t).undo.length⟩, slot, op.change⟩ :: h.events }

/-- A write and, when it succeeds, its entry in the history. -/
def write (h : History) (t : TxnId) (op : WriteOp) (slot : Slot) : History :=
  if h.db.blocked (h.db.txns t) slot (h.db.versions slot).head? op then
    { h with db := h.db.tableWrite t op slot }
  else h.writeLogged t op slot

def step (h : History) : TableAction → Option History
  | .begin t =>
      if (h.db.txns t).ctl = .idle then some { h with db := h.db.beginAlone t } else none
  | .commit t =>
      if (h.db.txns t).ctl = .active then some { h with db := h.db.commitAlone t } else none
  | .insert t tbl pid chunk =>
      if (h.db.txns t).ctl = .active then some (h.insert t tbl pid chunk) else none
  | .write t op slot =>
      if (h.db.txns t).ctl = .active ∧ slot.idx < h.db.count slot.tbl slot.pid then
        some (h.write t op slot)
      else none

/-- Any stored tuples, with the delete bits clear beyond the last of a page. -/
def Init (h : History) : Prop :=
  h.db.Init ∧ h.events = [] ∧ h.initial = h.db ∧
    ∀ x : Slot, h.db.count x.tbl x.pid ≤ x.idx → h.db.deletedBit x = false

/-- Timestamps are only handed out below `bound`. -/
def HandsOutBelow (bound : Nat) (h : History) : TableAction → Prop
  | .commit t => Db.HandsOutBelow bound (h.db.lockLatch t) (.run t)
  | a => Db.HandsOutBelow bound h.db a.start

instance (bound : Nat) (h : History) (a : TableAction) : Decidable (HandsOutBelow bound h a) := by
  cases a <;> unfold HandsOutBelow <;> infer_instance

theorem time_lt_of_begin {bound : Nat} {h : History} {t : TxnId}
    (hc : h.HandsOutBelow bound (.begin t)) : h.db.time < bound := hc rfl

theorem time_lt_of_commit {bound : Nat} {h : History} {t : TxnId}
    (hc : h.HandsOutBelow bound (.commit t)) : h.db.time < bound :=
  hc (by simp [Db.checksOut, Db.lockLatch])

theorem handsOutBelow_insert {bound : Nat} {h : History} {t : TxnId} {tbl pid : Nat}
    {chunk : DataChunk} : h.HandsOutBelow bound (.insert t tbl pid chunk) :=
  fun hout => Bool.noConfusion hout

theorem handsOutBelow_write {bound : Nat} {h : History} {t : TxnId} {op : WriteOp} {slot : Slot} :
    h.HandsOutBelow bound (.write t op slot) :=
  fun hout => Bool.noConfusion hout

end History

/-- The table operations as a transition system. -/
def tableSystem : TSys History TableAction := ⟨History.Init, History.step⟩

namespace History

/-- Everything a step can do. -/
inductive Stepped (h : History) : TableAction → History → Prop
  | begin {t} : (h.db.txns t).ctl = .idle →
      Stepped h (.begin t) { h with db := h.db.beginAlone t }
  | commit {t} : (h.db.txns t).ctl = .active →
      Stepped h (.commit t) { h with db := h.db.commitAlone t }
  | insert {t tbl pid chunk} : (h.db.txns t).ctl = .active →
      Stepped h (.insert t tbl pid chunk) (h.insert t tbl pid chunk)
  | blocked {t op slot} : (h.db.txns t).ctl = .active →
      slot.idx < h.db.count slot.tbl slot.pid →
      h.db.blocked (h.db.txns t) slot (h.db.versions slot).head? op = true →
      Stepped h (.write t op slot) { h with db := h.db.tableWrite t op slot }
  | write {t op slot} : (h.db.txns t).ctl = .active →
      slot.idx < h.db.count slot.tbl slot.pid →
      h.db.blocked (h.db.txns t) slot (h.db.versions slot).head? op = false →
      Stepped h (.write t op slot) (h.writeLogged t op slot)

theorem stepped_of_step {h h' : History} {a : TableAction} (hs : h.step a = some h') :
    Stepped h a h' := by
  cases a with
  | begin t =>
      simp only [step, Option.ite_none_right_eq_some, Option.some.injEq] at hs
      exact hs.2 ▸ .begin hs.1
  | commit t =>
      simp only [step, Option.ite_none_right_eq_some, Option.some.injEq] at hs
      exact hs.2 ▸ .commit hs.1
  | insert t tbl pid chunk =>
      simp only [step, Option.ite_none_right_eq_some, Option.some.injEq] at hs
      exact hs.2 ▸ .insert hs.1
  | write t op slot =>
      simp only [step, Option.ite_none_right_eq_some, Option.some.injEq] at hs
      obtain ⟨⟨hctl, halloc⟩, rfl⟩ := hs
      cases hb : h.db.blocked (h.db.txns t) slot (h.db.versions slot).head? op with
      | true => simpa [History.write, hb] using Stepped.blocked hctl halloc hb
      | false => simpa [History.write, hb] using Stepped.write hctl halloc hb

/-! ## The fine-grained run behind a step -/

theorem quiet_setTxn {s s' : Db} {t : TxnId} {x : Txn} (hq : s.Quiet)
    (htxns : s'.txns = update s.txns t x)
    (hx : x.ctl = .idle ∨ x.ctl = .active ∨ ∃ c, x.ctl = .committed c)
    (hcommit : s'.commitLatch = s.commitLatch) (hlatch : s'.latch = s.latch) : s'.Quiet := by
  refine ⟨fun u => ?_, hcommit ▸ hq.commitLatch, hlatch ▸ hq.latch⟩
  rw [htxns]
  by_cases hu : u = t
  · subst hu; simpa using hx
  · simpa [hu] using hq.ctl u

theorem quiet_step {h h' : History} {a : TableAction} (hq : h.db.Quiet) (hs : Stepped h a h') :
    h'.db.Quiet := by
  cases hs with
  | begin hctl =>
      rw [Db.beginAlone_of_zero hq.commitLatch]
      exact quiet_setTxn hq rfl (.inr (.inl rfl)) rfl rfl
  | commit hctl => exact quiet_setTxn hq rfl (.inr (.inr ⟨_, rfl⟩)) rfl rfl
  | insert hctl => exact quiet_setTxn hq rfl (.inr (.inl hctl)) rfl rfl
  | blocked => exact Db.quiet_tableWrite hq _ _ _
  | write => exact Db.quiet_tableWrite hq _ _ _

/-- Each step is a run of the fine-grained system. -/
theorem steps_db {bound : Nat} {h h' : History} {a : TableAction} (hq : h.db.Quiet)
    (hv : h.db.HeadsValid) (hc : HandsOutBelow bound h a) (hs : Stepped h a h') :
    txnSystem.Steps (Db.HandsOutBelow bound) h.db h'.db := by
  cases hs with
  | begin hctl => exact Db.steps_beginAlone hctl (time_lt_of_begin hc)
  | commit hctl => exact Db.steps_commitAlone hq hctl (time_lt_of_commit hc)
  | insert hctl => exact Db.steps_insertTuple hq hctl _ _ _
  | blocked hctl halloc => exact Db.steps_tableWrite hq hv hctl halloc
  | write hctl halloc => exact Db.steps_tableWrite hq hv hctl halloc

theorem headsValid_of_chainInv {s : Db} (h : s.ChainInv) : s.HeadsValid :=
  fun x p hp => h.valid x p (List.mem_of_head? hp)

/-- The database of a run of table operations is reached by the fine-grained
system, and no call is under way. -/
theorem reachable_db {h : History} (hr : tableSystem.ReachableBy (HandsOutBelow signBit) h) :
    txnSystem.ReachableBy (Db.HandsOutBelow signBit) h.db ∧ h.db.Quiet := by
  refine hr.invariant (P := fun h => txnSystem.ReachableBy (Db.HandsOutBelow signBit) h.db ∧
    h.db.Quiet) ?_ ?_
  · rintro h ⟨hinit, -, -, -⟩
    have ⟨_, hlatch, htxns, _, hpages⟩ := hinit
    exact ⟨⟨h.db, hinit, .refl⟩, fun t => .inl (by rw [htxns]), hlatch, hpages⟩
  · rintro h a h' ⟨hreach, hq⟩ hc hs
    have hst := stepped_of_step hs
    have hv := headsValid_of_chainInv (Db.chainInv_reachable hreach)
    exact ⟨hreach.steps (steps_db hq hv hc hst), quiet_step hq hst⟩

/-! ## The version chains are the history -/

theorem eventsOf_cons {h : History} (h' : History) {e : Event} (hevents : h'.events = e :: h.events)
    (x : Slot) :
    h'.eventsOf x = if e.slot = x then e :: h.eventsOf x else h.eventsOf x := by
  by_cases hx : e.slot = x <;> simp [eventsOf, hevents, hx]

/-- The calls so far and the version chains. -/
structure HistoryInv (h : History) : Prop where
  chain : ∀ x, h.db.versions x = (h.eventsOf x).map Event.ptr
  allocated : ∀ e ∈ h.events, e.slot.idx < h.db.count e.slot.tbl e.slot.pid
  records : ∀ e ∈ h.events, ∃ r, h.db.record e.ptr = some r ∧ r.type = e.change.type
  insertLast : ∀ x, (h.eventsOf x).Pairwise fun e _ => e.change.isInsert = false
  bit : ∀ x, h.eventsOf x = [] → h.db.deletedBit x = h.initial.deletedBit x

theorem HistoryInv.eventsOf_nil {h : History} (hi : HistoryInv h) {x : Slot}
    (hx : h.db.count x.tbl x.pid ≤ x.idx) : h.eventsOf x = [] := by
  refine List.filter_eq_nil_iff.mpr fun e he => ?_
  have := hi.allocated e he
  simp only [decide_eq_true_eq]
  rintro rfl
  omega

theorem idleEmpty_of_commitInv {bound : Nat} {s : Db} (hc : Db.CommitInv bound s) : s.IdleEmpty :=
  fun t hidle => (hc.ok t).fresh (.inl hidle)

/-- A write changes the context of its transaction only, which goes on. -/
theorem txns_tableWrite (s : Db) (t : TxnId) (op : WriteOp) (slot : Slot) :
    ∃ x, (s.tableWrite t op slot).txns = update s.txns t x ∧ x.ctl = (s.txns t).ctl := by
  cases hb : s.blocked (s.txns t) slot (s.versions slot).head? op with
  | true =>
      simp only [Db.tableWrite, hb, if_true]
      exact ⟨_, rfl, rfl⟩
  | false =>
      simp only [Db.tableWrite, hb, Bool.false_eq_true, if_false]
      exact ⟨_, rfl, rfl⟩

theorem idleEmpty_step {h h' : History} {a : TableAction} (hf : h.db.IdleEmpty)
    (hs : Stepped h a h') : h'.db.IdleEmpty := by
  cases hs with
  | begin hctl => exact Db.idleEmpty_beginAlone hf hctl
  | commit hctl => exact Db.idleEmpty_update hf rfl (by simp)
  | insert hctl => exact Db.idleEmpty_update hf rfl (by simp [hctl])
  | @blocked t op slot hctl halloc hb =>
      obtain ⟨x, htxns, hx⟩ := txns_tableWrite h.db t op slot
      exact Db.idleEmpty_update hf htxns (by simp [hx, hctl])
  | @write t op slot hctl halloc hb =>
      obtain ⟨x, htxns, hx⟩ := txns_tableWrite h.db t op slot
      exact Db.idleEmpty_update hf htxns (by simp [hx, hctl])

/-- A record that exists keeps its type and its before-image. -/
theorem record_kept {h h' : History} {a : TableAction}
    (hf : h.db.IdleEmpty) (hs : Stepped h a h') {p : RecPtr} {r : UndoRecord}
    (hr : h.db.record p = some r) :
    ∃ r', h'.db.record p = some r' ∧ r'.type = r.type ∧ r'.delta = r.delta := by
  obtain ⟨owner, idx⟩ := p
  have hlt : idx < (h.db.txns owner).undo.length := (List.getElem?_eq_some_iff.mp hr).1
  -- only the calling transaction's records can change
  have others : ∀ {s : Db} {t : TxnId} {x : Txn}, s.txns = update h.db.txns t x →
      (t = owner → ∃ r', x.undo[idx]? = some r' ∧ r'.type = r.type ∧ r'.delta = r.delta) →
      ∃ r', s.record ⟨owner, idx⟩ = some r' ∧ r'.type = r.type ∧ r'.delta = r.delta := by
    intro s t x hx ht
    by_cases ho : owner = t
    · subst ho
      simpa [Db.record, hx] using ht rfl
    · exact ⟨r, by simpa [Db.record, hx, ho] using hr, rfl, rfl⟩
  have append : ∀ {t : TxnId} {new : List UndoRecord}, t = owner →
      ∃ r', ((h.db.txns t).undo ++ new)[idx]? = some r' ∧ r'.type = r.type ∧
        r'.delta = r.delta := by
    rintro t new rfl
    exact ⟨r, by rw [List.getElem?_append_left hlt]; exact hr, rfl, rfl⟩
  cases hs with
  | @begin t hctl =>
      have hundo := hf t hctl
      by_cases ho : owner = t
      · subst ho; simp [hundo] at hlt
      · refine ⟨r, ?_, rfl, rfl⟩
        unfold Db.beginAlone Db.tryLatch
        split <;> simpa [Db.record, ho] using hr
  | @commit t hctl =>
      refine others rfl ?_
      rintro rfl
      exact ⟨r.setTimestamp h.db.time, by
        simp only [List.getElem?_map, show (h.db.txns t).undo[idx]? = some r from hr]
        rfl, rfl, rfl⟩
  | insert hctl => exact others rfl append
  | @blocked t op slot hctl halloc hb =>
      simp only [Db.tableWrite, hb, if_true]
      exact others rfl append
  | @write t op slot hctl halloc hb =>
      simp only [writeLogged, Db.tableWrite, hb, Bool.false_eq_true, if_false]
      exact others rfl append

theorem HistoryInv.records_kept {h h' : History} {a : TableAction}
    (hi : HistoryInv h) (hf : h.db.IdleEmpty) (hs : Stepped h a h') :
    ∀ e ∈ h.events, ∃ r, h'.db.record e.ptr = some r ∧ r.type = e.change.type := by
  intro e he
  obtain ⟨r, hr, ht⟩ := hi.records e he
  obtain ⟨r', hr', ht', -⟩ := record_kept hf hs hr
  exact ⟨r', hr', ht'.trans ht⟩

theorem newRecord_type (finish : Nat) (slot : Slot) (op : WriteOp) :
    (Db.newRecord finish slot op).type = op.change.type := by
  cases op <;> rfl

/-- A call that leaves the chains, the pages' counts and the delete bits. -/
theorem HistoryInv.of_same {h h' : History} (hi : HistoryInv h) (hevents : h'.events = h.events)
    (hinitial : h'.initial = h.initial) (hversions : h'.db.versions = h.db.versions)
    (hcount : h'.db.count = h.db.count) (hbit : h'.db.deletedBit = h.db.deletedBit)
    (hrecords : ∀ e ∈ h.events, ∃ r, h'.db.record e.ptr = some r ∧ r.type = e.change.type) :
    HistoryInv h' := by
  have hof : ∀ x, h'.eventsOf x = h.eventsOf x := fun x => by simp only [eventsOf, hevents]
  exact ⟨fun x => by rw [hversions, hof, hi.chain], fun e he => by
      rw [hcount]; exact hi.allocated e (hevents ▸ he),
    fun e he => hrecords e (hevents ▸ he), fun x => hof x ▸ hi.insertLast x,
    fun x hx => by rw [hbit, hinitial]; exact hi.bit x (hof x ▸ hx)⟩

theorem historyInv_insert {h : History} {t : TxnId} {tbl pid : Nat} {chunk : DataChunk}
    (hi : HistoryInv h) (hrecords : ∀ e ∈ h.events,
      ∃ r, (h.insert t tbl pid chunk).db.record e.ptr = some r ∧ r.type = e.change.type) :
    HistoryInv (h.insert t tbl pid chunk) := by
  have hnil := hi.eventsOf_nil (x := ⟨tbl, pid, h.db.count tbl pid⟩) le_rfl
  have hof := eventsOf_cons (h := h) (h.insert t tbl pid chunk) rfl
  refine ⟨fun x => ?_, fun e he => ?_, fun e he => ?_, fun x => ?_, fun x hx => ?_⟩
  · rw [hof]
    by_cases hx : x = ⟨tbl, pid, h.db.count tbl pid⟩
    · subst hx
      simp [hnil, History.insert, Db.insertTuple]
    · simp [Ne.symm hx, hx, ← hi.chain, History.insert, Db.insertTuple]
  · rcases List.mem_cons.mp he with rfl | he
    · simp [History.insert, Db.insertTuple]
    · exact lt_of_lt_of_le (hi.allocated e he) (Db.count_le_insertTuple ..)
  · rcases List.mem_cons.mp he with rfl | he
    · refine ⟨.initializeInsert (h.db.txns t).finish ⟨tbl, pid, h.db.count tbl pid⟩, ?_, rfl⟩
      simp [History.insert, Db.insertTuple, Db.record]
    · exact hrecords e he
  · rw [hof]
    split
    · rename_i hx
      rw [← hx, hnil]
      exact List.pairwise_singleton _ _
    · exact hi.insertLast x
  · rw [hof] at hx
    split at hx
    · simp at hx
    · exact hi.bit x hx

theorem historyInv_write {h : History} {t : TxnId} {op : WriteOp} {slot : Slot}
    (hi : HistoryInv h) (halloc : slot.idx < h.db.count slot.tbl slot.pid)
    (hb : h.db.blocked (h.db.txns t) slot (h.db.versions slot).head? op = false)
    (hrecords : ∀ e ∈ h.events,
      ∃ r, (h.db.tableWrite t op slot).record e.ptr = some r ∧ r.type = e.change.type) :
    HistoryInv (h.writeLogged t op slot) := by
  have hwrite : h.db.tableWrite t op slot = _ := if_neg (by simp [hb])
  have hof := eventsOf_cons (h := h) (h.writeLogged t op slot) rfl
  refine ⟨fun x => ?_, fun e he => ?_, fun e he => ?_, fun x => ?_, fun x hx => ?_⟩
  · rw [hof, writeLogged, hwrite]
    by_cases hs : slot = x
    · subst hs; simp [hi.chain]
    · simp [hs, Ne.symm hs, hi.chain]
  · have hcount : (h.db.tableWrite t op slot).count = h.db.count := by rw [hwrite]; rfl
    rw [writeLogged, hcount]
    rcases List.mem_cons.mp he with rfl | he
    · exact halloc
    · exact hi.allocated e he
  · rcases List.mem_cons.mp he with rfl | he
    · exact ⟨_, Db.record_tableWrite hb, newRecord_type ..⟩
    · exact hrecords e he
  · rw [hof]
    split
    · refine List.pairwise_cons.mpr ⟨fun _ _ => ?_, hi.insertLast x⟩
      cases op <;> rfl
    · exact hi.insertLast x
  · rw [hof] at hx
    split at hx
    · simp at hx
    · rename_i hne
      have hbit : (h.db.tableWrite t op slot).deletedBit x = h.db.deletedBit x := by
        rw [hwrite]
        simp only
        split
        · exact update_of_ne (Ne.symm hne) _ _
        · rfl
      exact hbit.trans (hi.bit x hx)

theorem historyInv_step {h h' : History} {a : TableAction}
    (hf : h.db.IdleEmpty) (hi : HistoryInv h) (hs : Stepped h a h') :
    HistoryInv h' := by
  have hrecords := hi.records_kept hf hs
  cases hs with
  | @begin t hctl =>
      refine hi.of_same rfl rfl ?_ ?_ ?_ hrecords <;>
        (unfold Db.beginAlone Db.tryLatch; split <;> rfl)
  | commit hctl => exact hi.of_same rfl rfl rfl rfl rfl hrecords
  | insert hctl => exact historyInv_insert hi hrecords
  | @blocked t op slot hctl halloc hb =>
      have hwrite : h.db.tableWrite t op slot = _ := if_pos hb
      exact hi.of_same rfl rfl (by rw [hwrite]; rfl) (by rw [hwrite]; rfl) (by rw [hwrite]; rfl)
        hrecords
  | write hctl halloc hb => exact historyInv_write hi halloc hb hrecords

theorem historyInv_init {h : History} (hinit : h.Init) : HistoryInv h := by
  obtain ⟨⟨-, -, -, hversions, -⟩, hevents, hinitial, -⟩ := hinit
  have hof : ∀ x, h.eventsOf x = [] := fun x => by simp [eventsOf, hevents]
  exact ⟨fun x => by simp [hversions, hof], by simp [hevents], by simp [hevents],
    fun x => by simp [hof], fun x _ => by rw [hinitial]⟩

theorem idleEmpty_init {h : History} (hinit : h.Init) : h.db.IdleEmpty := by
  obtain ⟨⟨-, -, htxns, -⟩, -⟩ := hinit
  intro t _
  rw [htxns]

theorem historyInv_reachable {C : History → TableAction → Prop} {h : History}
    (hr : tableSystem.ReachableBy C h) : HistoryInv h := by
  have hboth : h.db.IdleEmpty ∧ HistoryInv h := by
    refine hr.invariant (P := fun h => h.db.IdleEmpty ∧ HistoryInv h)
      (fun _ hinit => ⟨idleEmpty_init hinit, historyInv_init hinit⟩) ?_
    rintro h a h' ⟨hf, hi⟩ - hs
    have hst := stepped_of_step hs
    exact ⟨idleEmpty_step hf hst, historyInv_step hf hi hst⟩
  exact hboth.2

end History

/-! ## Commit through the iterator -/

/-- The call that a step runs as a whole. -/
def TableAction.action : TableAction → Action
  | begin t => .begin t
  | commit t => .commit t
  | insert t tbl pid chunk => .insert t tbl pid chunk
  | write t op slot => .write t op slot

namespace History

/-- The transaction whose records `RestampVersions` visits in the step. -/
def restamps : TableAction → Option TxnId
  | .commit t => some t
  | .begin _ | .insert _ _ _ _ | .write _ _ _ => none

/-- The table operations, where the iterator of a transaction stops at these of its records. -/
def stepThrough (visited : TxnId → Option (List Nat)) (h : History) (a : TableAction) :
    Option History :=
  match a with
  | .commit t =>
      if (h.db.txns t).ctl = .active then
        (visited t).map fun stops => { h with db := h.db.commitThrough t stops }
      else none
  | _ => h.step a

theorem stepThrough_all {visited : TxnId → Option (List Nat)} {h : History} {a : TableAction}
    (hall : ∀ t, restamps a = some t → visited t = some (List.range (h.db.recordCount t))) :
    h.stepThrough visited a = h.step a := by
  cases a with
  | commit t =>
      unfold stepThrough
      simp only [hall t rfl, Option.map_some, Db.commitThrough_all]
      rfl
  | begin | insert | write => rfl

theorem recordCount_tableWrite (s : Db) (t : TxnId) (op : WriteOp) (slot : Slot) :
    (s.tableWrite t op slot).recordCount = update s.recordCount t (s.recordCount t + 1) := by
  unfold Db.tableWrite
  dsimp only
  split
  · refine (Db.recordCount_setTxn ..).trans ?_
    rw [List.length_append]
    rfl
  · refine (Db.recordCount_setTxn ..).trans ?_
    rw [List.length_append]
    rfl

theorem Stepped.recordCount {h h' : History} {a : TableAction} (hs : Stepped h a h') :
    h'.db.recordCount = Action.recordsAfter h.db.recordCount (some a.action) := by
  cases hs with
  | @begin t hctl =>
      have hfirst : (h.db.beginTransaction t).recordCount = update h.db.recordCount t 0 :=
        Db.recordCount_setTxn ..
      have hlatch : (h.db.beginAlone t).recordCount = (h.db.beginTransaction t).recordCount := by
        unfold Db.beginAlone Db.tryLatch
        split
        · rfl
        · exact Db.recordCount_eq rfl rfl
      exact hlatch.trans hfirst
  | commit => exact Db.recordCount_eq rfl (List.length_map _)
  | insert =>
      refine (Db.recordCount_setTxn ..).trans ?_
      rw [List.length_append]
      rfl
  | blocked => exact recordCount_tableWrite ..
  | write => exact recordCount_tableWrite ..

end History

/-- The table operations, with the undo buffers of the transactions. -/
def tableHost : TxnHost History TableAction where
  sys := tableSystem
  db h := h.db
  action _ a := some a.action
  restamps _ := History.restamps
  stepThrough := History.stepThrough
  through_all _ _ _ hall := History.stepThrough_all hall
  step_records _ _ _ hs := (History.stepped_of_step hs).recordCount

end Db7
