import Db7.Txn.Concurrent

/-!
# What one step can do

`Stepped` lists the steps of `Db.step`, one constructor each with its guard,
and `WriteStep` gathers what every step on the write paths has in common.
Invariants are proved by cases on these and never unfold `Db.step`.
-/

namespace Db7

open Lib Function

namespace Txn

/-- Begun and not yet in `Commit`. -/
def running (x : Txn) : Bool :=
  match x.ctl with
  | .active | .writing _ _ _ _ => true
  | _ => false

end Txn

namespace Db

@[simp] theorem setTxn_txns (s : Db) (t : TxnId) (x : Txn) :
    (s.setTxn t x).txns = update s.txns t x := rfl

section SetTxn

variable (s : Db) (t : TxnId) (x : Txn)

@[simp] theorem setTxn_time : (s.setTxn t x).time = s.time := rfl

@[simp] theorem setTxn_commitLatch : (s.setTxn t x).commitLatch = s.commitLatch := rfl

@[simp] theorem setTxn_versions : (s.setTxn t x).versions = s.versions := rfl

@[simp] theorem setTxn_schema : (s.setTxn t x).schema = s.schema := rfl

@[simp] theorem setTxn_count : (s.setTxn t x).count = s.count := rfl

@[simp] theorem setTxn_rows : (s.setTxn t x).rows = s.rows := rfl

@[simp] theorem setTxn_deletedBit : (s.setTxn t x).deletedBit = s.deletedBit := rfl

@[simp] theorem setTxn_latch : (s.setTxn t x).latch = s.latch := rfl

@[simp] theorem setTxn_setTxn (y : Txn) : (s.setTxn t x).setTxn t y = s.setTxn t y := by
  simp [setTxn]

end SetTxn

theorem runTxn_of_writing {s : Db} {t : TxnId} (op : WriteOp) (slot : Slot) (rec : Nat)
    (pc : WritePc) (h : (s.txns t).ctl = .writing op slot rec pc) :
    s.runTxn t = s.runWrite t op slot rec pc := by
  simp [runTxn, h]

@[simp] theorem beginTransaction_txns (s : Db) (t : TxnId) :
    (s.beginTransaction t).txns =
      update s.txns t ⟨.spinning, s.time, finishTimeOf s.time, [], []⟩ := rfl

@[simp] theorem lockLatch_txns (s : Db) (t : TxnId) :
    (s.lockLatch t).txns = update s.txns t { s.txns t with ctl := .locked } := rfl

@[simp] theorem checkOutCommit_txns (s : Db) (t : TxnId) :
    (s.checkOutCommit t).txns =
      update s.txns t { s.txns t with ctl := .restamping s.time 0 } := rfl

@[simp] theorem unlockLatch_txns (s : Db) (t : TxnId) (c : Nat) :
    (s.unlockLatch t c).txns = update s.txns t { s.txns t with ctl := .committed c } := rfl

/-- Everything a step can do. -/
inductive Stepped (s : Db) : Action → Db → Prop
  | begin {t} : (s.txns t).ctl = .idle → Stepped s (.begin t) (s.beginTransaction t)
  | spin {t} : (s.txns t).ctl = .spinning → Stepped s (.spin t) (s.tryLatch t)
  | insert {t tbl pid chunk} : (s.txns t).ctl = .active → s.latch tbl pid = none →
      Stepped s (.insert t tbl pid chunk) (s.insertTuple t tbl pid chunk)
  | start {t op slot} : (s.txns t).ctl = .active → slot.idx < s.count slot.tbl slot.pid →
      (latched op → s.latch slot.tbl slot.pid = none) →
      Stepped s (.write t op slot) (s.startWrite t op slot)
  | lock {t} : (s.txns t).ctl = .active → Stepped s (.commit t) (s.lockLatch t)
  | checkOut {t} : (s.txns t).ctl = .locked → Stepped s (.run t) (s.checkOutCommit t)
  | restamp {t c i} : (s.txns t).ctl = .restamping c i → i < (s.txns t).undo.length →
      Stepped s (.run t) (s.restampOne t c i)
  | unlock {t c i} : (s.txns t).ctl = .restamping c i → (s.txns t).undo.length ≤ i →
      Stepped s (.run t) (s.unlockLatch t c)
  | load {t op slot rec} : (s.txns t).ctl = .writing op slot rec .load →
      Stepped s (.run t)
        (s.setTxn t (setPc (s.txns t) op slot rec (.check (s.versions slot).head?)))
  | check {t op slot rec head} : (s.txns t).ctl = .writing op slot rec (.check head) →
      Stepped s (.run t) (s.checkHead t op slot rec head)
  | apply {t chunk slot rec head} :
      (s.txns t).ctl = .writing (.update chunk) slot rec (.apply head) →
      Stepped s (.run t) (s.applyUpdate t chunk slot rec head)
  | link {t op slot rec head} : (s.txns t).ctl = .writing op slot rec (.link head) →
      Stepped s (.run t) (s.link t op slot rec head)
  | exit {t op slot rec ok} : (s.txns t).ctl = .writing op slot rec (.exit ok) →
      Stepped s (.run t) (s.finishWrite t op slot ok)

theorem stepped_of_step {s s' : Db} {a : Action} (h : s.step a = some s') : Stepped s a s' := by
  cases a with
  | begin t =>
      simp only [step, Option.ite_none_right_eq_some, Option.some.injEq] at h
      exact h.2 ▸ .begin h.1
  | spin t =>
      simp only [step, Option.ite_none_right_eq_some, Option.some.injEq] at h
      exact h.2 ▸ .spin h.1
  | insert t tbl pid chunk =>
      simp only [step, Option.ite_none_right_eq_some, Option.some.injEq] at h
      exact h.2 ▸ .insert h.1.1 h.1.2
  | write t op slot =>
      simp only [step, Option.ite_none_right_eq_some, Option.some.injEq] at h
      exact h.2 ▸ .start h.1.1 h.1.2.1 h.1.2.2
  | commit t =>
      simp only [step, Option.ite_none_right_eq_some, Option.some.injEq] at h
      exact h.2 ▸ .lock h.1
  | run t =>
      simp only [step, runTxn] at h
      split at h
      · rename_i hctl
        exact Option.some.inj h ▸ .checkOut hctl
      · rename_i c i hctl
        split at h
        · rename_i hi
          exact Option.some.inj h ▸ .restamp hctl hi
        · rename_i hi
          exact Option.some.inj h ▸ .unlock hctl (Nat.le_of_not_lt hi)
      · rename_i op slot rec pc hctl
        cases pc with
        | load => exact Option.some.inj h ▸ .load hctl
        | check head => exact Option.some.inj h ▸ .check hctl
        | apply head =>
            cases op with
            | update chunk => exact Option.some.inj h ▸ .apply hctl
            | delete => simp [runWrite] at h
            | deleteRaw => simp [runWrite] at h
        | link head => exact Option.some.inj h ▸ .link hctl
        | exit ok => exact Option.some.inj h ▸ .exit hctl
      all_goals simp at h

/-! ## What every step keeps -/

theorem count_le_insertTuple (s : Db) (t : TxnId) (tbl pid : Nat) (chunk : DataChunk) (a b : Nat) :
    s.count a b ≤ (s.insertTuple t tbl pid chunk).count a b := by
  by_cases ha : a = tbl
  · subst ha
    by_cases hb : b = pid
    · subst hb; simp [insertTuple]
    · simp [insertTuple, hb]
  · simp [insertTuple, ha]

theorem Stepped.schema_eq {s s' : Db} {a : Action} (h : Stepped s a s') : s'.schema = s.schema := by
  cases h with
  | spin _ => unfold tryLatch; split <;> rfl
  | check _ => simp only [checkHead]; split <;> rfl
  | link _ => unfold Db.link; split <;> rfl
  | _ => rfl

theorem Stepped.count_le {s s' : Db} {a : Action} (h : Stepped s a s') (tbl pid : Nat) :
    s.count tbl pid ≤ s'.count tbl pid := by
  cases h with
  | insert _ _ => exact count_le_insertTuple ..
  | spin _ => unfold tryLatch; split <;> exact Nat.le_refl _
  | check _ => simp only [checkHead]; split <;> exact Nat.le_refl _
  | link _ => unfold Db.link; split <;> exact Nat.le_refl _
  | _ => exact Nat.le_refl _

/-- A step on the write paths: it moves only `t`, inside the part of its life
where its records carry its finish time. -/
structure WriteStep (s : Db) (t : TxnId) (s' : Db) : Prop where
  others : ∀ u, u ≠ t → s'.txns u = s.txns u
  time : s'.time = s.time
  commitLatch : s'.commitLatch = s.commitLatch
  before : (s.txns t).running
  after : (s'.txns t).running
  start : (s'.txns t).start = (s.txns t).start
  finish : (s'.txns t).finish = (s.txns t).finish
  length : (s.txns t).undo.length ≤ (s'.txns t).undo.length
  stamps : (∀ r ∈ (s.txns t).undo, r.timestamp = (s.txns t).finish) →
    ∀ r ∈ (s'.txns t).undo, r.timestamp = (s.txns t).finish

/-- Rewriting one record without touching its timestamp. -/
theorem forall_mem_modify {l : List UndoRecord} {i ts : Nat} {f : UndoRecord → UndoRecord}
    (hf : ∀ r, (f r).timestamp = r.timestamp) (h : ∀ r ∈ l, r.timestamp = ts) :
    ∀ r ∈ l.modify i f, r.timestamp = ts := by
  intro r hr
  obtain ⟨j, hj⟩ := List.mem_iff_getElem?.mp hr
  rw [List.getElem?_modify] at hj
  obtain ⟨r₀, hr₀, rfl⟩ := Option.map_eq_some_iff.mp hj
  have h₀ := h r₀ (List.mem_of_getElem? hr₀)
  split
  · rw [hf, h₀]
  · exact h₀

theorem newRecord_timestamp (ts : Nat) (slot : Slot) (op : WriteOp) :
    (newRecord ts slot op).timestamp = ts := by
  cases op <;> rfl

/-- Every step of a call to `Insert`, `UpdateUndo`, `DeleteUndo` or
`DeleteUndoRaw` is a write step. -/
theorem writeStep_insert {s : Db} {t : TxnId} (tbl pid : Nat) (chunk : DataChunk)
    (h : (s.txns t).ctl = .active) : WriteStep s t (s.insertTuple t tbl pid chunk) := by
  refine ⟨fun u hu => by simp [insertTuple, hu], rfl, rfl, by simp [Txn.running, h],
    by simp [insertTuple, Txn.running, h], by simp [insertTuple], by simp [insertTuple],
    by simp [insertTuple], ?_⟩
  intro hs r hr
  simp only [insertTuple, setTxn_txns, update_self, List.mem_append, List.mem_singleton] at hr
  rcases hr with hr | rfl
  · exact hs r hr
  · rfl

theorem writeStep_start {s : Db} {t : TxnId} (op : WriteOp) (slot : Slot)
    (h : (s.txns t).ctl = .active) : WriteStep s t (s.startWrite t op slot) := by
  refine ⟨fun u hu => by simp [startWrite, hu], rfl, rfl, by simp [Txn.running, h],
    by simp [startWrite, Txn.running], by simp [startWrite], by simp [startWrite],
    by simp [startWrite], ?_⟩
  intro hs r hr
  simp only [startWrite, setTxn_txns, update_self, List.mem_append, List.mem_singleton] at hr
  rcases hr with hr | rfl
  · exact hs r hr
  · exact newRecord_timestamp ..

section Loop

variable {s : Db} {t : TxnId} {op : WriteOp} {slot : Slot} {rec : Nat} {pc : WritePc}
  (h : (s.txns t).ctl = .writing op slot rec pc)

include h

theorem running_of_writing : (s.txns t).running = true := by
  simp [Txn.running, h]

/-- Moving the program counter. -/
theorem writeStep_setPc (pc' : WritePc) :
    WriteStep s t (s.setTxn t (setPc (s.txns t) op slot rec pc')) :=
  ⟨fun u hu => by simp [hu], rfl, rfl, running_of_writing h, by simp [setPc, Txn.running],
    by simp [setPc], by simp [setPc], by simp [setPc], by simp [setPc]⟩

theorem writeStep_check (head : Option RecPtr) :
    WriteStep s t (s.checkHead t op slot rec head) := by
  simp only [checkHead]
  split
  · refine ⟨fun u hu => by simp [hu], rfl, rfl, running_of_writing h,
      by simp [setPc, Txn.running], by simp [setPc], by simp [setPc], by simp [setPc], ?_⟩
    intro hs
    simpa [setPc] using forall_mem_modify (fun r => r.invalidate_timestamp) hs
  · exact writeStep_setPc h _

theorem writeStep_link (head : Option RecPtr) : WriteStep s t (s.link t op slot rec head) := by
  unfold link
  split
  · exact ⟨fun u hu => by simp [hu], rfl, rfl, running_of_writing h,
      by simp [setPc, Txn.running], by simp [setPc], by simp [setPc], by simp [setPc],
      by simp [setPc]⟩
  · exact writeStep_setPc h _

theorem writeStep_exit (ok : Bool) : WriteStep s t (s.finishWrite t op slot ok) :=
  ⟨fun u hu => by simp [finishWrite, hu], rfl, rfl, running_of_writing h,
    by simp [finishWrite, Txn.running], by simp [finishWrite], by simp [finishWrite],
    by simp [finishWrite], by simp [finishWrite]⟩

end Loop

theorem writeStep_apply {s : Db} {t : TxnId} {chunk : DataChunk} {slot : Slot} {rec : Nat}
    {head : Option RecPtr} (h : (s.txns t).ctl = .writing (.update chunk) slot rec (.apply head)) :
    WriteStep s t (s.applyUpdate t chunk slot rec head) := by
  refine ⟨fun u hu => by simp [applyUpdate, hu], rfl, rfl, running_of_writing h,
    by simp [applyUpdate, setPc, Txn.running], by simp [applyUpdate, setPc],
    by simp [applyUpdate, setPc], by simp [applyUpdate, setPc], ?_⟩
  intro hs
  simp only [applyUpdate, setPc, setTxn_txns, update_self]
  exact forall_mem_modify (fun r => rfl) hs

/-- A step either moves a transaction through `BeginTransaction` or `Commit`,
or is a write step. -/
theorem Stepped.kind {s s' : Db} {a : Action} (h : Stepped s a s') :
    (∃ t, a = .begin t ∧ (s.txns t).ctl = .idle ∧ s' = s.beginTransaction t) ∨
    (∃ t, a = .spin t ∧ (s.txns t).ctl = .spinning ∧ s' = s.tryLatch t) ∨
    (∃ t, a = .commit t ∧ (s.txns t).ctl = .active ∧ s' = s.lockLatch t) ∨
    (∃ t, a = .run t ∧ (s.txns t).ctl = .locked ∧ s' = s.checkOutCommit t) ∨
    (∃ t c i, a = .run t ∧ (s.txns t).ctl = .restamping c i ∧
      i < (s.txns t).undo.length ∧ s' = s.restampOne t c i) ∨
    (∃ t c i, a = .run t ∧ (s.txns t).ctl = .restamping c i ∧
      (s.txns t).undo.length ≤ i ∧ s' = s.unlockLatch t c) ∨
    (∃ t, WriteStep s t s') := by
  cases h with
  | begin h => exact .inl ⟨_, rfl, h, rfl⟩
  | spin h => exact .inr (.inl ⟨_, rfl, h, rfl⟩)
  | lock h => exact .inr (.inr (.inl ⟨_, rfl, h, rfl⟩))
  | checkOut h => exact .inr (.inr (.inr (.inl ⟨_, rfl, h, rfl⟩)))
  | restamp h hi => exact .inr (.inr (.inr (.inr (.inl ⟨_, _, _, rfl, h, hi, rfl⟩))))
  | unlock h hi => exact .inr (.inr (.inr (.inr (.inr (.inl ⟨_, _, _, rfl, h, hi, rfl⟩)))))
  | insert h _ => exact .inr (.inr (.inr (.inr (.inr (.inr ⟨_, writeStep_insert _ _ _ h⟩)))))
  | start h _ _ => exact .inr (.inr (.inr (.inr (.inr (.inr ⟨_, writeStep_start _ _ h⟩)))))
  | load h => exact .inr (.inr (.inr (.inr (.inr (.inr ⟨_, writeStep_setPc h _⟩)))))
  | check h => exact .inr (.inr (.inr (.inr (.inr (.inr ⟨_, writeStep_check h _⟩)))))
  | apply h => exact .inr (.inr (.inr (.inr (.inr (.inr ⟨_, writeStep_apply h⟩)))))
  | link h => exact .inr (.inr (.inr (.inr (.inr (.inr ⟨_, writeStep_link h _⟩)))))
  | exit h => exact .inr (.inr (.inr (.inr (.inr (.inr ⟨_, writeStep_exit h _⟩)))))

end Db

end Db7
