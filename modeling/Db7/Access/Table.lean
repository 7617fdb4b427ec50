import Db7.Lib.Lists
import Db7.Txn.CommitOrder

/-!
# Calls that nothing interrupts

`BeginTransaction`, `Commit` and the table operations as single steps, each
the composition of the atomic steps of `Db.step` in the order of the source.

* **refinement** (`steps_beginAlone`, `steps_commitAlone`, `steps_insertTuple`,
  `steps_tableWrite`): from a state in which no call is under way, each is a run
  of the fine-grained system, so what holds in every state of that system holds
  here;
* **quiet states** (`Quiet`): between two such calls no call is under way, the
  commit latch is zero and no page latch is held.
-/

namespace Db7

open Lib Function

namespace Db

/-- `RestampVersions` and `Commit` with nothing between their steps, where the iterator stops at
every record. -/
def commitAlone (s : Db) (t : TxnId) : Db :=
  let (commit, time) := checkOutTimestamp s.time
  { s.setTxn t { s.txns t with
      undo := (s.txns t).undo.map fun r => r.setTimestamp commit
      ctl := .committed commit } with time := time }

/-- The same, where the iterator of `RestampVersions` stops at these of the records. -/
def commitThrough (s : Db) (t : TxnId) (stops : List Nat) : Db :=
  let (commit, time) := checkOutTimestamp s.time
  { s.setTxn t { s.txns t with
      undo :=
        stops.foldl (fun undo k => undo.modify k fun r => r.setTimestamp commit) (s.txns t).undo
      ctl := .committed commit } with time := time }

theorem commitThrough_all (s : Db) (t : TxnId) :
    s.commitThrough t (List.range (s.recordCount t)) = s.commitAlone t := by
  have hall :
      ∀ commit, (List.range (s.recordCount t)).foldl (fun undo k => undo.modify k fun r =>
        r.setTimestamp commit)
      (s.txns t).undo = (s.txns t).undo.map fun r => r.setTimestamp commit := by
    intro commit
    rw [recordCount, foldl_modify_range _ _ le_rfl, List.take_length, List.drop_length,
      List.append_nil]
  unfold commitThrough commitAlone
  dsimp only
  rw [hall]

/-- What a write does to the page: the before-image and the new row. -/
def writePage (s : Db) (slot : Slot) : WriteOp → DataChunk × Row
  | .update chunk => updateSingle (s.schema slot.tbl) chunk (s.rows slot)
  | .delete | .deleteRaw => ([], s.rows slot)

/-- `Table::Update`, `Table::Delete` or `Table::DeleteUndoRaw` with nothing
between its steps: the loop runs once and its swap succeeds. -/
def tableWrite (s : Db) (t : TxnId) (op : WriteOp) (slot : Slot) : Db :=
  let x := s.txns t
  let record := newRecord x.finish slot op
  if s.blocked x slot (s.versions slot).head? op then
    s.setTxn t { x with
      undo := x.undo ++ [record.invalidate]
      returned := (op, slot, false) :: x.returned }
  else
    let (delta, row) := s.writePage slot op
    { s.setTxn t { x with
        undo := x.undo ++ [{ record with delta := delta }]
        returned := (op, slot, true) :: x.returned } with
      rows := update s.rows slot row
      versions := update s.versions slot (⟨t, x.undo.length⟩ :: s.versions slot)
      deletedBit := if op = .delete then update s.deletedBit slot true else s.deletedBit }

/-- The record a successful write leaves. -/
theorem record_tableWrite {s : Db} {t : TxnId} {op : WriteOp} {slot : Slot}
    (hb : s.blocked (s.txns t) slot (s.versions slot).head? op = false) :
    (s.tableWrite t op slot).record ⟨t, (s.txns t).undo.length⟩ =
      some { newRecord (s.txns t).finish slot op with delta := (s.writePage slot op).1 } := by
  simp [tableWrite, hb, record]

/-- No call is under way. -/
structure Quiet (s : Db) : Prop where
  ctl : ∀ t, (s.txns t).ctl = .idle ∨ (s.txns t).ctl = .active ∨
    ∃ c, (s.txns t).ctl = .committed c
  commitLatch : s.commitLatch = 0
  latch : ∀ tbl pid, s.latch tbl pid = none

/-- The heads of the version chains point to records. -/
def HeadsValid (s : Db) : Prop :=
  ∀ x p, (s.versions x).head? = some p → p.idx < (s.txns p.owner).undo.length

section Refinement

variable {bound : Nat} {s : Db} {t : TxnId}

theorem steps_beginAlone (hctl : (s.txns t).ctl = .idle) (hlt : s.time < bound) :
    txnSystem.Steps (HandsOutBelow bound) s (s.beginAlone t) := by
  refine .tail (.single (a := .begin t) (fun _ => hlt) (if_pos hctl)) (a := .spin t)
    (by simp [HandsOutBelow, checksOut]) ?_
  exact if_pos (by simp)

theorem steps_insertTuple (hq : s.Quiet) (hctl : (s.txns t).ctl = .active) (tbl pid : Nat)
    (chunk : DataChunk) :
    txnSystem.Steps (HandsOutBelow bound) s (s.insertTuple t tbl pid chunk) :=
  .single (a := .insert t tbl pid chunk) (by simp [HandsOutBelow, checksOut])
    (if_pos ⟨hctl, hq.latch _ _⟩)

/-- A step of a call of `t` that hands out no timestamp. -/
theorem steps_run {s' : Db} (t : TxnId) (hctl : (s.txns t).ctl ≠ .locked)
    (h : s.runTxn t = some s') : txnSystem.Steps (HandsOutBelow bound) s s' :=
  .single (a := .run t) (by simp [HandsOutBelow, checksOut, hctl]) h

/-- The loop of `RestampVersions` from index `done.length` on, and `Unlock`. -/
theorem steps_restamp (t : TxnId) (c : Nat) : ∀ (done rest : List UndoRecord) {s : Db},
    (s.txns t).ctl = .restamping c done.length → (s.txns t).undo = done ++ rest →
    txnSystem.Steps (HandsOutBelow bound) s
      ((s.setTxn t { s.txns t with
        undo := done ++ rest.map fun r => r.setTimestamp c }).unlockLatch t c)
  | done, [], s, hctl, hundo => by
      refine steps_run t (by simp [hctl]) ?_
      simp only [List.append_nil] at hundo
      simp only [runTxn, hctl, hundo, Nat.lt_irrefl, if_false, List.map_nil, List.append_nil]
      simp [unlockLatch, setTxn, hundo]
  | done, r :: rest, s, hctl, hundo => by
      have hfirst : txnSystem.Steps (HandsOutBelow bound) s (s.restampOne t c done.length) := by
        refine steps_run t (by simp [hctl]) ?_
        simp [runTxn, hctl, hundo]
      have hmodify : (s.txns t).undo.modify done.length (fun r => r.setTimestamp c) =
          (done ++ [r.setTimestamp c]) ++ rest := by
        rw [hundo, modify_length_append, List.append_assoc, List.singleton_append]
      have hnext := steps_restamp t c (done ++ [r.setTimestamp c]) rest
        (s := s.restampOne t c done.length) (by simp [restampOne]) (by simp [restampOne, hmodify])
      refine hfirst.trans ?_
      simpa [restampOne, unlockLatch, setTxn] using hnext

theorem steps_commitAlone (hq : s.Quiet) (hctl : (s.txns t).ctl = .active)
    (hlt : s.time < bound) :
    txnSystem.Steps (HandsOutBelow bound) s (s.commitAlone t) := by
  have hlock : txnSystem.Steps (HandsOutBelow bound) s (s.lockLatch t) :=
    .single (a := .commit t) (by simp [HandsOutBelow, checksOut]) (if_pos hctl)
  have hout : txnSystem.Steps (HandsOutBelow bound) (s.lockLatch t)
      ((s.lockLatch t).checkOutCommit t) := by
    refine .single (a := .run t) (fun _ => hlt) ?_
    simp [txnSystem, step, runTxn]
  have hrest := @steps_restamp bound t s.time [] (s.txns t).undo
    ((s.lockLatch t).checkOutCommit t) (by simp [lockLatch]) (by simp [lockLatch])
  refine (hlock.trans hout).trans ?_
  simpa [commitAlone, unlockLatch, checkOutCommit, lockLatch, setTxn, checkOutTimestamp, u64,
    u64Pred, hq.commitLatch] using hrest

end Refinement

/-! ## Writes -/

section Write

variable {bound : Nat} {s : Db} {t : TxnId} {op : WriteOp} {slot : Slot}

/-- The new record of `t` does not change what a write sees of the head. -/
theorem blocked_append (h : s.HeadsValid) (s' : Db) (x' : Txn) (new : List UndoRecord)
    (hothers : ∀ u, u ≠ t → s'.txns u = s.txns u)
    (hundo : (s'.txns t).undo = (s.txns t).undo ++ new)
    (hstart : x'.start = (s.txns t).start) (hfinish : x'.finish = (s.txns t).finish)
    (hbit : s'.deletedBit = s.deletedBit) :
    s'.blocked x' slot (s.versions slot).head? op =
      s.blocked (s.txns t) slot (s.versions slot).head? op := by
  have hrecord : (s.versions slot).head?.bind s'.record =
      (s.versions slot).head?.bind s.record := by
    cases hp : (s.versions slot).head? with
    | none => rfl
    | some p =>
        have hv := h slot p hp
        by_cases ho : p.owner = t
        · simp only [Option.bind_some, record]
          rw [ho] at hv ⊢
          rw [hundo, List.getElem?_append_left hv]
        · simp [record, hothers _ ho]
  have hconflict : s'.hasConflict x' (s.versions slot).head? =
      s.hasConflict (s.txns t) (s.versions slot).head? := by
    simp only [hasConflict, hrecord, hstart, hfinish]
  cases op <;> simp only [blocked, hconflict, hrecord, hbit]

/-- A write that has taken its latch, made its record and loaded the head. -/
def atCheck (s : Db) (t : TxnId) (op : WriteOp) (slot : Slot) : Db :=
  (s.startWrite t op slot).setTxn t (setPc ((s.startWrite t op slot).txns t) op slot
    (s.txns t).undo.length (.check (s.versions slot).head?))

@[simp] theorem atCheck_txns : (s.atCheck t op slot).txns = update s.txns t
    { s.txns t with
      undo := (s.txns t).undo ++ [newRecord (s.txns t).finish slot op]
      ctl := .writing op slot (s.txns t).undo.length (.check (s.versions slot).head?) } := by
  simp [atCheck, startWrite, setPc]

theorem steps_atCheck (op : WriteOp) (hctl : (s.txns t).ctl = .active)
    (halloc : slot.idx < s.count slot.tbl slot.pid)
    (hlatch : latched op → s.latch slot.tbl slot.pid = none) :
    txnSystem.Steps (HandsOutBelow bound) s (s.atCheck t op slot) := by
  refine .tail (.single (a := .write t op slot) (by simp [HandsOutBelow, checksOut])
    (if_pos ⟨hctl, halloc, hlatch⟩)) (a := .run t) ?_ ?_
  · simp [HandsOutBelow, checksOut, startWrite]
  · refine (runTxn_of_writing op slot (s.txns t).undo.length .load
      (by simp [startWrite])).trans ?_
    simp [runWrite, atCheck, startWrite]

/-- Taking a free page latch and giving it back changes nothing. -/
theorem latch_restore {latch : Nat → Nat → Option TxnId} {tbl pid : Nat}
    (h : latch tbl pid = none) (owner : Option TxnId) :
    update (update latch tbl (update (latch tbl) pid owner)) tbl
      (update (update (latch tbl) pid owner) pid none) = latch := by
  rw [update_idem, update_idem, ← h, update_eq_self, update_eq_self]

/-- A write that fails the test gives up. -/
theorem steps_fail (rec : Nat) (head : Option RecPtr)
    (hctl : (s.txns t).ctl = .writing op slot rec (.check head))
    (hb : s.blocked (s.txns t) slot head op = true) :
    txnSystem.Steps (HandsOutBelow bound) s
      ((s.setTxn t { s.txns t with
        undo := (s.txns t).undo.modify rec UndoRecord.invalidate }).finishWrite t op slot
          false) := by
  have hcheck : txnSystem.Steps (HandsOutBelow bound) s (s.checkHead t op slot rec head) :=
    steps_run t (by simp [hctl]) (runTxn_of_writing _ _ _ _ hctl)
  simp only [checkHead, hb, if_true] at hcheck
  refine hcheck.trans (steps_run t (by simp [setPc]) ?_)
  refine (runTxn_of_writing op slot rec (.exit false) (by simp [setPc])).trans ?_
  simp [runWrite, finishWrite, setTxn, setPc]

/-- A write that holds the current head swaps its record in and returns. -/
theorem steps_swap (t : TxnId) (op : WriteOp) (slot : Slot) (rec : Nat) (head : Option RecPtr)
    (hctl : (s.txns t).ctl = .writing op slot rec (.link head))
    (hhead : (s.versions slot).head? = head) :
    txnSystem.Steps (HandsOutBelow bound) s
      ({ s with versions := update s.versions slot (⟨t, rec⟩ :: s.versions slot) }.finishWrite
        t op slot true) := by
  have hlink : txnSystem.Steps (HandsOutBelow bound) s (s.link t op slot rec head) :=
    steps_run t (by simp [hctl]) (runTxn_of_writing _ _ _ _ hctl)
  simp only [link, hhead, if_true] at hlink
  refine hlink.trans (steps_run t (by simp [setPc]) ?_)
  refine (runTxn_of_writing op slot rec (.exit true) (by simp [setPc])).trans ?_
  simp [runWrite, finishWrite, setTxn, setPc]

theorem newRecord_delta (finish : Nat) (slot : Slot) (op : WriteOp)
    (h : ∀ chunk, op ≠ .update chunk) : (newRecord finish slot op).delta = [] := by
  cases op with
  | update chunk => exact absurd rfl (h chunk)
  | delete => rfl
  | deleteRaw => rfl

/-- A write that passes the test writes the page and links its record. -/
theorem steps_pass (head : Option RecPtr) (old : List UndoRecord) (r : UndoRecord)
    (hctl : (s.txns t).ctl = .writing op slot old.length (.check head))
    (hundo : (s.txns t).undo = old ++ [r]) (hr : (∀ chunk, op ≠ .update chunk) → r.delta = [])
    (hb : s.blocked (s.txns t) slot head op = false) (hhead : (s.versions slot).head? = head) :
    txnSystem.Steps (HandsOutBelow bound) s
      ({ s.setTxn t { s.txns t with
          undo := old ++ [{ r with delta := (s.writePage slot op).1 }] } with
        rows := update s.rows slot (s.writePage slot op).2
        versions := update s.versions slot (⟨t, old.length⟩ :: s.versions slot) }.finishWrite
        t op slot true) := by
  have hcheck : txnSystem.Steps (HandsOutBelow bound) s
      (s.setTxn t (setPc (s.txns t) op slot old.length (passed head op))) := by
    refine steps_run t (by simp [hctl]) ((runTxn_of_writing _ _ _ _ hctl).trans ?_)
    simp [runWrite, checkHead, hb]
  have hdelete : passed head op = .link head → txnSystem.Steps (HandsOutBelow bound) s _ :=
    fun hpc => hcheck.trans (steps_swap t op slot old.length head (by simp [setPc, hpc]) hhead)
  cases op with
  | update chunk =>
      have happly : txnSystem.Steps (HandsOutBelow bound)
          (s.setTxn t (setPc (s.txns t) (.update chunk) slot old.length (.apply head)))
          (s.applyUpdate t chunk slot old.length head) := by
        refine steps_run t (by simp [setPc]) ((runTxn_of_writing (.update chunk) slot old.length
          (.apply head) (by simp [setPc])).trans ?_)
        simp [runWrite, applyUpdate, setPc, setTxn]
      have hswap := @steps_swap bound (s.applyUpdate t chunk slot old.length head) t
        (.update chunk) slot old.length head (by simp [applyUpdate, setPc])
          (by simpa [applyUpdate] using hhead)
      refine (hcheck.trans happly).trans ?_
      simpa [applyUpdate, finishWrite, setPc, setTxn, hundo, modify_length_append, writePage]
        using hswap
  | delete =>
      have hd : ({ r with delta := [] } : UndoRecord) = r := by
        rw [← hr (by simp)]
      simpa [finishWrite, setPc, setTxn, writePage, hd, ← hundo] using hdelete rfl
  | deleteRaw =>
      have hd : ({ r with delta := [] } : UndoRecord) = r := by
        rw [← hr (by simp)]
      simpa [finishWrite, setPc, setTxn, writePage, hd, ← hundo] using hdelete rfl

/-- A write that nothing interrupts is `tableWrite`. -/
theorem steps_tableWrite (hq : s.Quiet) (hv : s.HeadsValid) (hctl : (s.txns t).ctl = .active)
    (halloc : slot.idx < s.count slot.tbl slot.pid) :
    txnSystem.Steps (HandsOutBelow bound) s (s.tableWrite t op slot) := by
  refine (steps_atCheck op hctl halloc fun _ => hq.latch _ _).trans ?_
  have hblocked := @blocked_append s t op slot hv (s.atCheck t op slot)
    ((s.atCheck t op slot).txns t) [newRecord (s.txns t).finish slot op]
    (fun u hu => by simp [hu]) (by simp) (by simp) (by simp) rfl
  have hlatch : latched op = true →
      update (update s.latch slot.tbl (update (s.latch slot.tbl) slot.pid (some t))) slot.tbl
      (update (update (s.latch slot.tbl) slot.pid (some t)) slot.pid none) = s.latch :=
    fun _ => latch_restore (hq.latch _ _) _
  by_cases hb : s.blocked (s.txns t) slot (s.versions slot).head? op = true
  · have hfail := @steps_fail bound (s.atCheck t op slot) t op slot (s.txns t).undo.length
      (s.versions slot).head? (by simp) (hblocked.trans hb)
    convert hfail using 1
    simp only [tableWrite, hb, if_true]
    refine Db.ext rfl rfl ?_ rfl rfl rfl rfl ?_ ?_
    · simp [finishWrite, modify_length_append, hctl]
    · simp [finishWrite, atCheck, startWrite]
    · by_cases hl : latched op = true
      · simpa [finishWrite, atCheck, startWrite, hl] using (hlatch hl).symm
      · simp [finishWrite, atCheck, startWrite, hl]
  · rw [Bool.not_eq_true] at hb
    have hpass := @steps_pass bound (s.atCheck t op slot) t op slot (s.versions slot).head?
      (s.txns t).undo (newRecord (s.txns t).finish slot op) (by simp) (by simp)
      (newRecord_delta _ _ _) (hblocked.trans hb) rfl
    convert hpass using 1
    simp only [tableWrite, hb, Bool.false_eq_true, if_false]
    refine Db.ext rfl rfl ?_ rfl rfl rfl rfl ?_ ?_
    · have hpage : (s.atCheck t op slot).writePage slot op = s.writePage slot op := by
        cases op <;> rfl
      simp [finishWrite, hctl, hpage]
    · simp [finishWrite, atCheck, startWrite]
    · by_cases hl : latched op = true
      · simpa [finishWrite, atCheck, startWrite, hl] using (hlatch hl).symm
      · simp [finishWrite, atCheck, startWrite, hl]

end Write

/-! ## Chunks -/

/-- The chunks of inserts and updates hold distinct columns of the schema. -/
def Fits (s : Db) : Action → Prop
  | .insert _ tbl _ chunk => chunk.Fits (s.schema tbl)
  | .write _ (.update chunk) slot => chunk.Fits (s.schema slot.tbl)
  | _ => True

instance (s : Db) : (a : Action) → Decidable (s.Fits a)
  | .insert _ tbl _ chunk => inferInstanceAs (Decidable (chunk.Fits (s.schema tbl)))
  | .write _ (.update chunk) slot => inferInstanceAs (Decidable (chunk.Fits (s.schema slot.tbl)))
  | .write _ .delete _ => inferInstanceAs (Decidable True)
  | .write _ .deleteRaw _ => inferInstanceAs (Decidable True)
  | .begin _ => inferInstanceAs (Decidable True)
  | .spin _ => inferInstanceAs (Decidable True)
  | .commit _ => inferInstanceAs (Decidable True)
  | .run _ => inferInstanceAs (Decidable True)

/-! ## Transactions that have not begun -/

section Idle

variable {s s' : Db} {t : TxnId}

/-- A transaction that has not begun has no records. -/
def IdleEmpty (s : Db) : Prop := ∀ t, (s.txns t).ctl = .idle → (s.txns t).undo = []

/-- What a begin leaves as it is. -/
theorem undo_beginAlone (hidle : s.IdleEmpty) (hctl : (s.txns t).ctl = .idle) (u : TxnId) :
    ((s.beginAlone t).txns u).undo = (s.txns u).undo := by
  by_cases hu : u = t
  · subst hu
    rw [hidle u hctl]
    unfold beginAlone tryLatch
    split <;> simp [beginTransaction, setTxn]
  · unfold beginAlone tryLatch
    split <;> simp [beginTransaction, setTxn, hu]

theorem versions_beginAlone : (s.beginAlone t).versions = s.versions := by
  unfold beginAlone tryLatch
  split <;> rfl

theorem idleEmpty_beginAlone (hidle : s.IdleEmpty) (hctl : (s.txns t).ctl = .idle) :
    (s.beginAlone t).IdleEmpty := by
  intro u hu
  rw [undo_beginAlone hidle hctl]
  by_cases heq : u = t
  · rw [heq]
    exact hidle t hctl
  · refine hidle u ?_
    rw [← hu]
    unfold beginAlone tryLatch
    split <;> simp [beginTransaction, setTxn, heq]

/-- Calls of a transaction that has begun. -/
theorem idleEmpty_of_append (hidle : s.IdleEmpty)
    (hctl : ∀ u, (s'.txns u).ctl = .idle → (s.txns u).ctl = .idle)
    (hundo : ∀ u, u ≠ t → (s'.txns u).undo = (s.txns u).undo) (ht : (s'.txns t).ctl ≠ .idle) :
    s'.IdleEmpty := by
  intro u hu
  have hne : u ≠ t := fun heq => ht (heq ▸ hu)
  rw [hundo u hne]
  exact hidle u (hctl u hu)

theorem idleEmpty_update {x : Txn} (hidle : s.IdleEmpty) (htxns : s'.txns = update s.txns t x)
    (hx : x.ctl ≠ .idle) : s'.IdleEmpty := by
  refine idleEmpty_of_append (t := t) hidle (fun u hu => ?_) (fun u hu => ?_) ?_
  · by_cases hut : u = t
    · subst hut
      rw [htxns, update_self] at hu
      exact absurd hu hx
    · rwa [htxns, update_of_ne hut] at hu
  · rw [htxns, update_of_ne hu]
  · rwa [htxns, update_self]

end Idle

end Db

end Db7
