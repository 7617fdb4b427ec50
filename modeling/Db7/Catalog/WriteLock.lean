import Db7.Catalog.Calls
import Db7.Catalog.Invariants
import Db7.Lib.TSys

/-!
# The write lock of the catalog

Several transactions call the operations of one catalog, each call of a table or an
index and each access of `TryLock` being one step. `UpdateNamespaceName` and
`UpdateTableName` do not take the lock. Where they change nothing without it, at most one
transaction that has not ended has changed the catalog (`catalog_exclusive`).

* **programs** (`within_program`): an operation that takes the lock changes tables and
  indexes only with the lock in hand;
* **invariant** (`LockInv`): whoever has changed something has the lock, and a
  transaction only takes it from one that has ended.
-/

namespace Db7

open Lib Function DataChunkBuilder

/-- A catalog, what is left of the operations that the transactions are inside of, and
which transactions have changed a table or an index. -/
structure CatalogThreads where
  catalog : DatabaseCatalog
  running : TxnId → Option (CatalogOp × CatalogProg Unit)
  changed : TxnId → Bool

/-- What a scheduler may do next. -/
inductive ThreadAction
  | begin (t : TxnId)
  | commit (t : TxnId) (stops : List Nat)
  | start (t : TxnId) (op : CatalogOp)
  | run (t : TxnId)

namespace CatalogOp

/-- Does the operation call `TryLock`? -/
def takesLock : CatalogOp → Bool
  | updateNamespaceName .. | updateTableName .. => false
  | _ => true

end CatalogOp

/-- A call that does not change a table or an index leaves all of them. -/
theorem CatalogCall.same_of_not_changes {env : CatalogEnv} {t : TxnId} {c : CatalogCall}
    {s : DatabaseCatalog} (h : c.changes env t s = false) : (c.run env t s).2.indexes = s.indexes ∧
      (c.run env t s).2.db.rows = s.db.rows ∧ (c.run env t s).2.db.versions = s.db.versions := by
  cases c with
  | compareExchange expected desired =>
      rw [run_compareExchange]
      split <;> exact ⟨rfl, rfl, rfl⟩
  | insertUnique index chunk tid =>
      have htaken : s.taken env t index chunk = true := by simpa [changes] using h
      rw [run_insertUnique, if_pos htaken]
      exact ⟨rfl, rfl, rfl⟩
  | deleteUndoRaw tid tblId =>
      have hblocked :
          s.db.blocked (s.db.txns t) (tid.slot tblId)
          (s.db.versions (tid.slot tblId)).head? .deleteRaw =
          true := by simpa [changes, Db.deleteUndoRaw] using h
      refine ⟨rfl, ?_, ?_⟩
      · show (s.db.tableWrite t .deleteRaw (tid.slot tblId)).rows = s.db.rows
        simp [Db.tableWrite, Db.setTxn, hblocked]
      · show (s.db.tableWrite t .deleteRaw (tid.slot tblId)).versions = s.db.versions
        simp [Db.tableWrite, Db.setTxn, hblocked]
  | insertRow | insert => exact absurd h (by simp [changes])
  | loadLock | abort | takeNamespaceOid | takeClassOid | takeAttributeOid | takeConstraintOid | get
  | getTidForModify | getTidExists => exact ⟨rfl, rfl, rfl⟩

namespace CatalogThreads

/-- The control state of a transaction. -/
abbrev ctl (s : CatalogThreads) (t : TxnId) : Ctl := (s.catalog.db.txns t).ctl

/-- `txn->StartTime()`. -/
abbrev startTime (s : CatalogThreads) (t : TxnId) : Nat := (s.catalog.db.txns t).start

/-- `txn->FinishTime()`. -/
abbrev finishTime (s : CatalogThreads) (t : TxnId) : Nat := (s.catalog.db.txns t).finish

/-- The next step of the operation that `t` is inside of. -/
def runNext (env : CatalogEnv) (s : CatalogThreads) (t : TxnId) : Option CatalogThreads :=
  match s.running t with
  | none => none
  | some (op, .call c k) =>
      some { catalog := (c.run env t s.catalog).2
             running := update s.running t (some (op, k (c.run env t s.catalog).1))
             changed := update s.changed t (s.changed t || c.changes env t s.catalog) }
  | some _ => some { s with running := update s.running t none }

/-- One step. A transaction makes one operation after the other. -/
def step (env : CatalogEnv) (s : CatalogThreads) : ThreadAction → Option CatalogThreads
  | .begin t =>
      if s.ctl t = .idle
        then some { s with catalog := { s.catalog with db := s.catalog.db.beginAlone t } }
      else none
  | .commit t stops =>
      if s.ctl t = .active ∧ (s.running t).isNone ∧ s.catalog.rollback t = false then
        some { s with catalog := { s.catalog with db := s.catalog.db.commitThrough t stops } }
      else none
  | .start t op =>
      if s.ctl t = .active ∧ (s.running t).isNone then
        some { s with running := update s.running t (some (op,
          op.program (s.startTime t) (s.finishTime t))) }
      else none
  | .run t => s.runNext env t

/-- The catalog as `Builder` makes it, and no transaction. -/
def Init (s : CatalogThreads) : Prop :=
  s.catalog.Init ∧ (∀ t, s.running t = none) ∧ ∀ t, s.changed t = false

/-- The threads as a transition system. -/
def system (env : CatalogEnv) : TSys CatalogThreads ThreadAction := ⟨Init, step env⟩

/-- No two transactions that have not ended have both changed a table or an index. -/
def Exclusive (s : CatalogThreads) : Prop :=
  ∀ t u, s.ctl t = .active → s.ctl u = .active → s.changed t = true → s.changed u = true → t = u

/-- Timestamps stay below the bit that marks uncommitted versions, and where an operation
that does not take the lock changes a table or an index, its transaction has the lock. -/
def guarded (env : CatalogEnv) (s : CatalogThreads) : ThreadAction → Bool
  | .begin _ | .commit .. => s.catalog.db.time < signBit
  | .start .. => true
  | .run t =>
      match s.running t with
      | some (op, .call c _) =>
          op.takesLock || !c.changes env t s.catalog || s.catalog.writeLock = s.finishTime t
      | _ => true

/-- `guarded` as a condition on steps. -/
def Guarded (env : CatalogEnv) (s : CatalogThreads) (a : ThreadAction) : Prop :=
  s.guarded env a = true

instance (env : CatalogEnv) (s : CatalogThreads) (a : ThreadAction) : Decidable (Guarded env s a) :=
  inferInstanceAs (Decidable (_ = true))

end CatalogThreads

/-! ## Programs -/

namespace CatalogProg

variable {env : CatalogEnv} {t : TxnId} {start finish : Nat} {takesLock : Bool} {α β : Type}

/-- Others do not take the lock from its holder. -/
def Rely (finish : Nat) (s s' : DatabaseCatalog) : Prop :=
  s.writeLock = finish → s'.writeLock = finish

/-- A swap puts in the own time, for a word that is no conflict; a change needs the lock, in
operations that take it. -/
def Allowed (env : CatalogEnv) (t : TxnId) (start finish : Nat) (takesLock : Bool) :
    CatalogCall → DatabaseCatalog → Prop
  | .compareExchange expected desired, _ => desired = finish ∧
    hasConflictTs expected finish start = false
  | c, s => takesLock = true → c.changes env t s = true → s.writeLock = finish

/-- The call is not a swap of the lock. -/
def Plain : CatalogCall → Prop
  | .compareExchange .. => False
  | _ => True

/-- The lock is the transaction's. -/
def Owned (finish : Nat) (s : DatabaseCatalog) : Prop := s.writeLock = finish

theorem stable_owned : Prog.Stable (Rely finish) (Owned finish) := fun _ _ h hs => h hs

/-- Calls other than the swap leave the lock. -/
theorem writeLock_run {c : CatalogCall} (h : Plain c) (s : DatabaseCatalog) :
    (c.run env t s).2.writeLock = s.writeLock := by
  cases c with
  | compareExchange expected desired => exact h.elim
  | insertUnique index chunk tid =>
      rw [CatalogCall.run_insertUnique]
      split <;> rfl
  | loadLock | abort | takeNamespaceOid | takeClassOid | takeAttributeOid
  | takeConstraintOid | insert | get
  | getTidForModify | getTidExists | insertRow | deleteUndoRaw => rfl

theorem allowed_of_owned {c : CatalogCall} (h : Plain c) {s : DatabaseCatalog}
    (hs : takesLock = true → Owned finish s) :
    Allowed env t start finish takesLock c s := by
  cases c <;> first | exact h.elim | exact fun hlock _ => hs hlock

/-- The programs that are within the bounds of a transaction with these times. -/
abbrev WithinLock (env : CatalogEnv) (t : TxnId) (start finish : Nat) (takesLock : Bool)
    (P : DatabaseCatalog → Prop) (p : CatalogProg α) (Q : α → DatabaseCatalog → Prop) : Prop :=
  Prog.Within (CatalogCall.run env t) (Rely finish) (Allowed env t start finish takesLock) P p Q

/-- With the lock in hand a program without swaps keeps it. -/
theorem within_plain {p : CatalogProg α} (h : p.All Plain) :
    WithinLock env t start finish takesLock (Owned finish) p fun _ => Owned finish :=
  Prog.Within.of_all h (fun _ _ hc hs => allowed_of_owned hc fun _ => hs)
    (fun _ s hc hs => (writeLock_run hc s).trans hs) stable_owned

/-- An operation that does not take the lock. -/
theorem within_plain_unlocked {p : CatalogProg α} (h : p.All Plain) :
    WithinLock env t start finish false (fun _ => True) p fun _ _ => True :=
  Prog.Within.of_all h (fun _ _ hc _ => allowed_of_owned hc fun hlock => absurd hlock (by simp))
    (fun _ _ _ _ => trivial) fun _ _ _ _ => trivial

theorem allowed_loadLock {s : DatabaseCatalog} : Allowed env t start finish takesLock .loadLock s :=
  fun _ hchanges => absurd hchanges Bool.false_ne_true

theorem allowed_abort {s : DatabaseCatalog} : Allowed env t start finish takesLock .abort s :=
  fun _ hchanges => absurd hchanges Bool.false_ne_true

/-- What is known before `TryLock`: nothing, or that the lock is the transaction's. -/
structure BeforeLock (t : TxnId) (finish : Nat) (P : DatabaseCatalog → Prop) : Prop where
  stable : Prog.Stable (Rely finish) P
  abort : ∀ s, P s → P (s.abort t)
  of_owned : ∀ s, Owned finish s → P s

theorem beforeLock_true : BeforeLock t finish fun _ => True :=
  ⟨fun _ _ _ _ => trivial, fun _ _ => trivial, fun _ _ => trivial⟩

theorem beforeLock_owned : BeforeLock t finish (Owned finish) :=
  ⟨stable_owned, fun _ hs => hs, fun _ hs => hs⟩

/-- After `TryLock` answers yes the lock is the transaction's; what held before still does. -/
theorem within_tryLock {P : DatabaseCatalog → Prop} (h : BeforeLock t finish P) :
    WithinLock env t start finish takesLock P (tryLock start finish) fun locked s =>
      P s ∧ (locked = true → Owned finish s) := by
  have hgive : WithinLock env t start finish takesLock P (do abort; return false : CatalogProg Bool)
      fun locked s => P s ∧ (locked = true → Owned finish s) := by
    refine Prog.Within.bind (Q := fun _ => P) ?_ fun _ => Prog.Within.pure fun s hs => ⟨hs, by simp⟩
    exact Prog.Within.perform (fun _ _ => allowed_abort) h.abort fun _ => h.stable
  refine Prog.Within.bind (Q := fun v s => P s ∧ (v = finish → Owned finish s)) ?_ fun v => ?_
  · refine Prog.Within.perform (fun _ _ => allowed_loadLock)
      (fun s hs => ⟨hs, fun heq => heq⟩) fun v => ?_
    exact fun s s' hrely hs => ⟨h.stable s s' hrely hs.1, fun heq => hrely (hs.2 heq)⟩
  · refine Prog.Within.ite (fun hown => ?_) fun _ => Prog.Within.ite (fun _ => ?_) fun hconflict =>
      ?_
    · exact Prog.Within.pure fun s hs => ⟨hs.1, fun _ => hs.2 hown⟩
    · exact hgive.imp (fun s hs => hs.1) fun _ _ hs => hs
    · -- the word that was loaded is no conflict, so it is not the time of another transaction
      refine Prog.Within.bind (Q := fun swapped s => P s ∧ (swapped = true → Owned finish s)) ?_
        fun swapped => ?_
      · refine Prog.Within.perform (fun _ _ => ⟨rfl, by simpa using hconflict⟩) (fun s hs => ?_)
          fun swapped => ?_
        · let r : Bool × DatabaseCatalog :=
            if s.writeLock = v then (true, { s with writeLock := finish }) else (false, s)
          show P r.2 ∧ (r.1 = true → Owned finish r.2)
          by_cases heq : s.writeLock = v
          · simp only [r, if_pos heq]
            exact ⟨h.of_owned _ rfl, fun _ => rfl⟩
          · simp only [r, if_neg heq]
            exact ⟨hs.1, by simp⟩
        · exact fun s s' hrely hs => ⟨h.stable s s' hrely hs.1, fun heq => hrely (hs.2 heq)⟩
      · refine Prog.Within.ite (fun htrue => ?_) fun _ => ?_
        · exact Prog.Within.pure fun s hs => ⟨hs.1, fun _ => hs.2 htrue⟩
        · exact hgive.imp (fun s hs => hs.1) fun _ _ hs => hs

/-! ### Calls of tables and indexes -/

theorem plain_existsNamespace (oid : Oid) : (existsNamespace oid).All Plain :=
  .bind (.perform trivial) fun _ => .bind (.perform trivial) fun _ => .ite trivial trivial

theorem plain_existsTable (oid : Oid) : (existsTable oid).All Plain :=
  .bind (.perform trivial) fun _ => .bind (.perform trivial) fun _ => .ite trivial trivial

theorem plain_step (chunk : DataChunk) (tid : TupleId) (e : DatabaseCatalog.EntryStep) :
    (step chunk tid e).All Plain := by
  cases e with
  | insertUnique index message => exact .bind (.perform trivial) fun _ => .ite trivial trivial
  | insert index message => exact .perform trivial
  | existsNamespace oid => exact plain_existsNamespace oid
  | existsTable oid => exact plain_existsTable oid

theorem plain_runSteps (chunk : DataChunk) (tid : TupleId)
    (steps : List DatabaseCatalog.EntryStep) :
    (runSteps chunk tid steps).All Plain := by
  induction steps with
  | nil => trivial
  | cons e steps ih => exact .bind (plain_step chunk tid e) fun _ => ih

theorem plain_insertEntry (tbl : CatalogTable) (chunk : DataChunk)
    (steps : List DatabaseCatalog.EntryStep) :
    (insertEntry tbl chunk steps).All Plain :=
  .bind (.perform trivial) fun tid => plain_runSteps chunk tid steps

theorem plain_deleteEntry (index : IndexOid) (chunk : DataChunk) :
    (deleteEntry index chunk).All Plain := by
  refine .bind (.perform trivial) fun _ => .bind (.perform trivial) fun found => ?_
  cases found with
  | error message => trivial
  | ok tid => exact .ite trivial (.perform trivial)

theorem plain_succeeded {p : CatalogProg α} (h : p.All Plain) : (succeeded p).All Plain := by
  induction p with
  | done a => trivial
  | fail e => trivial
  | call c k ih => exact ⟨h.1, fun r => ih r (h.2 r)⟩

theorem plain_createNamespaceEntry (name : List Byte) (oid : Oid) :
    (createNamespaceEntry name oid).All Plain :=
  .bind (plain_insertEntry _ _ _) fun _ => trivial

theorem plain_createColumns (relOid : Oid) (columns : SchemaColumns) :
    (createColumns relOid columns).All Plain := by
  induction columns with
  | nil => trivial
  | cons column columns ih =>
      refine .bind ?_ fun _ => ih
      exact .bind (.perform trivial) fun _ => .bind (plain_insertEntry _ _ _) fun _ => trivial

theorem plain_createTableEntry (name : List Byte) (oid namespaceOid : Oid) (kind : RelKind) :
    (createTableEntry name oid namespaceOid kind).All Plain :=
  .bind (plain_insertEntry _ _ _) fun _ => trivial

theorem plain_updateNamespaceName (oid : Oid) (name : List Byte) :
    (updateNamespaceName oid name).All Plain :=
  .bind (plain_deleteEntry _ _) fun _ =>
    .ite (plain_succeeded (plain_createNamespaceEntry name oid)) trivial

theorem plain_updateTableName (oid : Oid) (name : List Byte) (namespaceOid : Oid) :
    (updateTableName oid name namespaceOid).All Plain :=
  .bind (plain_deleteEntry _ _) fun _ =>
    .ite (plain_succeeded (plain_createTableEntry _ _ _ _)) trivial

/-! ### Operations -/

/-- An operation that does its work with the lock. -/
theorem within_locked {P : DatabaseCatalog → Prop} {p q : CatalogProg α} (h : BeforeLock t finish P)
    (hp : WithinLock env t start finish takesLock (Owned finish) p fun _ => Owned finish)
    (hq : WithinLock env t start finish takesLock P q fun _ => P) :
    WithinLock env t start finish takesLock P (do if ← tryLock start finish then p else q)
      fun _ => P := by
  refine Prog.Within.bind (within_tryLock h) fun locked => ?_
  refine Prog.Within.ite (fun htrue => ?_) fun _ => ?_
  · exact hp.imp (fun s hs => hs.2 htrue) fun _ s hs => h.of_owned s hs
  · exact hq.imp (fun s hs => hs.1) fun _ _ hs => hs

theorem within_createNamespace {P : DatabaseCatalog → Prop} (h : BeforeLock t finish P)
    (name : List Byte) :
    WithinLock env t start finish takesLock P (createNamespace start finish name) fun _ => P :=
  within_locked h
    (within_plain (.bind (.perform trivial) fun oid => plain_createNamespaceEntry name oid)) trivial

theorem within_deleteNamespace {P : DatabaseCatalog → Prop}
    (h : BeforeLock t finish P) (oid : Oid) :
    WithinLock env t start finish takesLock P (deleteNamespace start finish oid) fun _ => P :=
  within_locked h (within_plain (plain_deleteEntry _ _)) (.pure fun _ hs => hs)

theorem within_createClass {P : DatabaseCatalog → Prop} (h : BeforeLock t finish P) (kind : RelKind)
    (name : List Byte) (namespaceOid : Oid) (schema : SchemaColumns) :
    WithinLock env t start finish takesLock P
      (createClass start finish kind name namespaceOid schema) fun _ => P := by
  refine within_locked h (within_plain ?_) (.pure fun _ hs => hs)
  refine .bind (plain_existsNamespace _) fun _ => .bind (.perform trivial) fun oid => ?_
  exact .bind (plain_createTableEntry _ _ _ _) fun _ => .bind (plain_createColumns _ _)
    fun _ => trivial

theorem within_createIndex {P : DatabaseCatalog → Prop} (h : BeforeLock t finish P)
    (name : List Byte) (relOid namespaceOid : Oid) (schema : IndexSchema) :
    WithinLock env t start finish takesLock P
      (createIndex start finish name relOid namespaceOid schema)
      fun _ => P := by
  refine within_locked h ?_ (.pure fun _ hs => hs)
  refine Prog.Within.bind (within_plain (plain_existsTable _)) fun _ => ?_
  -- `CreateIndexClass` takes the lock again
  refine Prog.Within.bind (within_createClass beforeLock_owned _ _ _ _) fun classOid =>
    within_plain ?_
  exact .bind (.bind (plain_insertEntry _ _ _) fun _ => trivial) fun _ => trivial

theorem within_createConstraint {P : DatabaseCatalog → Prop} (h : BeforeLock t finish P)
    (props : ConstraintProps) :
    WithinLock env t start finish takesLock P (createConstraint start finish props) fun _ => P :=
  within_locked h
    (within_plain (.bind (.perform trivial) fun _ => .bind (plain_insertEntry _ _ _)
      fun _ => trivial))
    (.pure fun _ hs => hs)

/-- **Every operation is within the bounds**: one that takes the lock changes tables and
indexes only with the lock in hand. -/
theorem within_program (op : CatalogOp) :
    WithinLock env t start finish op.takesLock (fun _ => True)
    (op.program start finish) fun _ _ => True := by
  have hignore : ∀ {α : Type} {takesLock : Bool} {p : CatalogProg α},
      (WithinLock env t start finish takesLock (fun _ => True) p fun _ _ => True) →
      WithinLock env t start finish takesLock (fun _ => True) (CatalogOp.ignore p) fun _ _ =>
        True :=
    fun hp => Prog.Within.bind hp fun _ => .pure fun _ hs => hs
  cases op with
  | createNamespace name => exact hignore (within_createNamespace beforeLock_true name)
  | deleteNamespace oid => exact hignore (within_deleteNamespace beforeLock_true oid)
  | updateNamespaceName oid name =>
      exact hignore (within_plain_unlocked (plain_updateNamespaceName oid name))
  | createTable name namespaceOid schema =>
      exact hignore (within_createClass beforeLock_true .regularTable name namespaceOid schema)
  | createIndexClass name namespaceOid schema =>
      exact hignore (within_createClass beforeLock_true .index name namespaceOid schema)
  | createIndex name relOid namespaceOid schema =>
      exact hignore (within_createIndex beforeLock_true name relOid namespaceOid schema)
  | updateTableName oid name namespaceOid =>
      exact hignore (within_plain_unlocked (plain_updateTableName oid name namespaceOid))
  | createConstraint props => exact hignore (within_createConstraint beforeLock_true props)

end CatalogProg

/-! ## The invariant -/

namespace CatalogThreads

open CatalogProg

variable {env : CatalogEnv} {s s' : CatalogThreads} {t u : TxnId}

/-- What is left of an operation of `t` is within its bounds. -/
def Bounded (env : CatalogEnv) (r : DatabaseCatalog) (t : TxnId) (op : CatalogOp)
    (p : CatalogProg Unit) : Prop :=
  (r.db.txns t).ctl = .active ∧ ∃ P :
    DatabaseCatalog → Prop, P r ∧ Prog.Stable (Rely (r.db.txns t).finish) P ∧
    WithinLock env t (r.db.txns t).start (r.db.txns t).finish op.takesLock P p fun _ _ => True

/-- The steps of others leave it so, if they do not take the lock away. -/
theorem Bounded.other {r r' : DatabaseCatalog} {op : CatalogOp} {p : CatalogProg Unit}
    (h : Bounded env r t op p)
    (hctl : (r'.db.txns t).ctl = .active) (hstart : (r'.db.txns t).start = (r.db.txns t).start)
    (hfinish : (r'.db.txns t).finish = (r.db.txns t).finish)
    (hlock : Rely (r.db.txns t).finish r r') :
    Bounded env r' t op p := by
  obtain ⟨-, P, hP, hstable, hwithin⟩ := h
  refine ⟨hctl, P, hstable r r' hlock hP, ?_, ?_⟩
  · rwa [hfinish]
  · rwa [hstart, hfinish]

/-- Whoever has changed something has the lock, and every program is within its bounds. -/
structure LockInv (env : CatalogEnv) (s : CatalogThreads) : Prop where
  below : s.catalog.db.time ≤ signBit
  times : ∀ t, s.ctl t ≠ .idle → s.startTime t < s.catalog.db.time ∧
    s.finishTime t = s.startTime t + signBit
  distinct : ∀ t u, s.ctl t ≠ .idle → s.ctl u ≠ .idle → s.startTime t = s.startTime u → t = u
  begun : ∀ t, s.changed t = true → s.ctl t ≠ .idle
  owner : ∀ t, s.ctl t = .active → s.changed t = true → s.catalog.writeLock = s.finishTime t
  threads : ∀ t op p, s.running t = some (op, p) → Bounded env s.catalog t op p

/-- The time of a transaction is no conflict for itself only. -/
theorem LockInv.eq_of_not_conflict (h : LockInv env s) (ht : s.ctl t ≠ .idle) (hu : s.ctl u ≠ .idle)
    (hfree : hasConflictTs (s.finishTime u) (s.finishTime t) (s.startTime t) = false) : u = t := by
  have hcommitted : isCommitted (s.finishTime u) = false := by
    rw [(h.times u hu).2]
    simp [isCommitted]
  have heq := (hasConflictTs_eq_false.mp hfree).1 hcommitted
  rw [(h.times u hu).2, (h.times t ht).2] at heq
  exact h.distinct u t hu ht (Nat.add_right_cancel heq)

theorem LockInv.exclusive (h : LockInv env s) : s.Exclusive := by
  intro t u ht hu htc huc
  have heq : s.finishTime t = s.finishTime u := (h.owner t ht htc).symm.trans (h.owner u hu huc)
  have ht' : s.ctl t ≠ .idle := by rw [ht]; simp
  have hu' : s.ctl u ≠ .idle := by rw [hu]; simp
  rw [(h.times t ht').2, (h.times u hu').2] at heq
  exact h.distinct t u ht' hu' (Nat.add_right_cancel heq)

theorem lockInv_init (h : s.Init) : LockInv env s := by
  obtain ⟨⟨⟨htime, -, htxns, -⟩, -⟩, hrunning, hchanged⟩ := h
  have hidle : ∀ t, s.ctl t = .idle := fun t => by rw [ctl, htxns]
  refine ⟨?_, ?_, ?_, ?_, ?_, ?_⟩
  · rw [htime]
    exact Nat.zero_le _
  · exact fun t ht => absurd (hidle t) ht
  · exact fun t u ht => absurd (hidle t) ht
  · intro t ht
    rw [hchanged] at ht
    exact absurd ht (by simp)
  · intro t ht
    rw [hidle] at ht
    exact absurd ht (by simp)
  · intro t op p hp
    rw [hrunning] at hp
    exact absurd hp (by simp)

/-! ### Steps -/

theorem u64_succ {time : Nat} (h : time < signBit) : u64 (time + 1) = time + 1 :=
  u64_of_lt (by unfold signBit at h; omega)

theorem lockInv_begin (h : LockInv env s) (hidle : s.ctl t = .idle)
    (hlt : s.catalog.db.time < signBit) :
    LockInv env { s with catalog := { s.catalog with db := s.catalog.db.beginAlone t } } := by
  have hother : ∀ u, u ≠ t → (s.catalog.db.beginAlone t).txns u = s.catalog.db.txns u := fun u hu =>
    Db.txns_beginAlone_of_ne hu
  obtain ⟨hstart, hfinish, -⟩ := @Db.txns_beginAlone_self s.catalog.db t
  have htime : (s.catalog.db.beginAlone t).time = s.catalog.db.time + 1 :=
    Db.time_beginAlone.trans (u64_succ hlt)
  -- a transaction that has begun before
  have hold : ∀ u, s.ctl u ≠ .idle → u ≠ t := fun u hu heq => hu (heq ▸ hidle)
  refine ⟨?_, ?_, ?_, ?_, ?_, ?_⟩
  · show (s.catalog.db.beginAlone t).time ≤ signBit
    omega
  · intro u hu
    show ((s.catalog.db.beginAlone t).txns u).start < (s.catalog.db.beginAlone t).time ∧
      ((s.catalog.db.beginAlone t).txns u).finish =
        ((s.catalog.db.beginAlone t).txns u).start + signBit
    by_cases heq : u = t
    · subst heq
      rw [hstart, hfinish, htime, finishTimeOf_eq hlt]
      exact ⟨Nat.lt_succ_self _, rfl⟩
    · have hu' : ((s.catalog.db.beginAlone t).txns u).ctl ≠ .idle := hu
      rw [hother u heq] at hu' ⊢
      have hbefore := h.times u hu'
      exact ⟨by rw [htime]; exact Nat.lt_succ_of_lt hbefore.1, hbefore.2⟩
  · intro u v hu hv hsame
    have hu' : ((s.catalog.db.beginAlone t).txns u).ctl ≠ .idle := hu
    have hv' : ((s.catalog.db.beginAlone t).txns v).ctl ≠ .idle := hv
    have hsame' : ((s.catalog.db.beginAlone t).txns u).start =
        ((s.catalog.db.beginAlone t).txns v).start := hsame
    by_cases hut : u = t
    · by_cases hvt : v = t
      · rw [hut, hvt]
      · rw [hother v hvt] at hv' hsame'
        rw [hut, hstart] at hsame'
        exact absurd (h.times v hv').1 (by rw [startTime, ← hsame']; exact Nat.lt_irrefl _)
    · rw [hother u hut] at hu' hsame'
      by_cases hvt : v = t
      · rw [hvt, hstart] at hsame'
        exact absurd (h.times u hu').1 (by rw [startTime, hsame']; exact Nat.lt_irrefl _)
      · rw [hother v hvt] at hv' hsame'
        exact h.distinct u v hu' hv' hsame'
  · intro u hu
    have hne := h.begun u hu
    show ((s.catalog.db.beginAlone t).txns u).ctl ≠ .idle
    rw [hother u (hold u hne)]
    exact hne
  · intro u hu hchanged
    have hne := hold u (h.begun u hchanged)
    have hu' : ((s.catalog.db.beginAlone t).txns u).ctl = .active := hu
    show s.catalog.writeLock = ((s.catalog.db.beginAlone t).txns u).finish
    rw [hother u hne] at hu' ⊢
    exact h.owner u hu' hchanged
  · intro u op p hp
    have hbounded := h.threads u op p hp
    have hne := hold u (by rw [ctl, hbounded.1]; simp)
    have hsame := hother u hne
    exact hbounded.other ((congrArg Txn.ctl hsame).trans hbounded.1) (congrArg Txn.start hsame)
      (congrArg Txn.finish hsame) id

/-- Steps that start no transaction. -/
theorem LockInv.next (h : LockInv env s) (hbelow : s'.catalog.db.time ≤ signBit)
    (htime : s.catalog.db.time ≤ s'.catalog.db.time) (hstart : ∀ u, s'.startTime u = s.startTime u)
    (hfinish : ∀ u, s'.finishTime u = s.finishTime u)
    (hidle : ∀ u, s'.ctl u ≠ .idle → s.ctl u ≠ .idle)
    (hbegun : ∀ u, s'.changed u = true → s'.ctl u ≠ .idle)
    (howner : ∀ u, s'.ctl u = .active → s'.changed u = true → s'.catalog.writeLock = s.finishTime u)
    (hthreads : ∀ u op p, s'.running u = some (op, p) → Bounded env s'.catalog u op p) :
    LockInv env s' where
  below := hbelow
  times u hu := by
    obtain ⟨hlt, heq⟩ := h.times u (hidle u hu)
    rw [hstart, hfinish]
    exact ⟨Nat.lt_of_lt_of_le hlt htime, heq⟩
  distinct u v hu hv hsame := by
    rw [hstart, hstart] at hsame
    exact h.distinct u v (hidle u hu) (hidle v hv) hsame
  begun := hbegun
  owner u hu hchanged := by
    rw [hfinish]
    exact howner u hu hchanged
  threads := hthreads

theorem lockInv_commit (h : LockInv env s) (hactive : s.ctl t = .active)
    (hnone : s.running t = none) (hlt : s.catalog.db.time < signBit) (stops : List Nat) :
    LockInv env
      { s with catalog := { s.catalog with db := s.catalog.db.commitThrough t stops } } := by
  have htxns := fun u => @Db.txns_commitThrough s.catalog.db t u stops
  have htime : (s.catalog.db.commitThrough t stops).time = s.catalog.db.time + 1 := u64_succ hlt
  refine h.next ?_ ?_ (fun u => (htxns u).1) (fun u => (htxns u).2.1) ?_ ?_ ?_ ?_
  · show (s.catalog.db.commitThrough t stops).time ≤ signBit
    omega
  · show s.catalog.db.time ≤ (s.catalog.db.commitThrough t stops).time
    omega
  · intro u hu heq
    refine hu ((htxns u).2.2.2.mpr ⟨fun hut => ?_, heq⟩)
    rw [hut, hactive] at heq
    exact absurd heq (by simp)
  · intro u hu heq
    exact h.begun u hu ((htxns u).2.2.2.mp heq).2
  · intro u hu hchanged
    exact h.owner u ((htxns u).2.2.1 hu).2 hchanged
  · intro u op p hp
    have hbounded := h.threads u op p hp
    refine hbounded.other ?_ (htxns u).1 (htxns u).2.1 id
    have hne : u ≠ t := by
      rintro rfl
      rw [show s.running u = some (op, p) from hp] at hnone
      exact absurd hnone (by simp)
    show ((s.catalog.db.commitThrough t stops).txns u).ctl = .active
    rw [show (s.catalog.db.commitThrough t stops).txns u =
      s.catalog.db.txns u from update_of_ne hne _ _]
    exact hbounded.1

theorem lockInv_start (h : LockInv env s) (op : CatalogOp) (hactive : s.ctl t = .active) :
    LockInv env { s with running := update s.running t (some (op,
      op.program (s.startTime t) (s.finishTime t))) } := by
  refine h.next h.below (Nat.le_refl _) (fun _ => rfl) (fun _ => rfl) (fun _ hu => hu)
    h.begun h.owner ?_
  intro u op' p hp
  change update s.running t _ u = some (op', p) at hp
  by_cases hut : u = t
  · subst hut
    rw [update_self] at hp
    obtain ⟨rfl, rfl⟩ := Prod.mk.inj (Option.some.inj hp)
    exact ⟨hactive, fun _ => True, trivial, fun _ _ _ _ => trivial, within_program op⟩
  · rw [update_of_ne hut] at hp
    exact h.threads u op' p hp

/-- An operation returns. -/
theorem lockInv_return (h : LockInv env s) :
    LockInv env { s with running := update s.running t none } := by
  refine h.next h.below (Nat.le_refl _) (fun _ => rfl) (fun _ => rfl) (fun _ hu => hu)
    h.begun h.owner ?_
  intro u op p hp
  change update s.running t none u = some (op, p) at hp
  by_cases hut : u = t
  · subst hut
    rw [update_self] at hp
    exact absurd hp (by simp)
  · rw [update_of_ne hut] at hp
    exact h.threads u op p hp

/-- A call takes the lock from nobody else. -/
theorem LockInv.keeps_lock (h : LockInv env s) {op : CatalogOp} {c : CatalogCall}
    (ht : s.ctl t ≠ .idle)
    (hallowed : Allowed env t (s.startTime t) (s.finishTime t) op.takesLock c s.catalog)
    (hu : s.ctl u ≠ .idle) (hut : u ≠ t) (hlock : s.catalog.writeLock = s.finishTime u) :
    (c.run env t s.catalog).2.writeLock = s.finishTime u := by
  by_cases hplain : Plain c
  · exact (writeLock_run hplain _).trans hlock
  · cases c with
    | compareExchange expected desired =>
        rw [CatalogCall.run_compareExchange]
        by_cases heq : s.catalog.writeLock = expected
        · have hfree := hallowed.2
          rw [← heq, hlock] at hfree
          exact absurd (h.eq_of_not_conflict ht hu hfree) hut
        · rw [if_neg heq]
          exact hlock
    | loadLock | abort | takeNamespaceOid | takeClassOid | takeAttributeOid
    | takeConstraintOid | insertRow
    | insertUnique | insert | get | getTidForModify | getTidExists | deleteUndoRaw =>
        exact absurd trivial hplain

/-- The time and the schedule of transactions are no business of the calls. -/
theorem time_run (c : CatalogCall) (r : DatabaseCatalog) :
    (c.run env t r).2.db.time = r.db.time := by
  cases c with
  | compareExchange expected desired =>
      rw [CatalogCall.run_compareExchange]
      split <;> rfl
  | insertUnique index chunk tid =>
      rw [CatalogCall.run_insertUnique]
      split <;> rfl
  | deleteUndoRaw tid tblId =>
      show (r.db.tableWrite t .deleteRaw (tid.slot tblId)).time = r.db.time
      cases hb :
        r.db.blocked (r.db.txns t) (tid.slot tblId)
        (r.db.versions (tid.slot tblId)).head? .deleteRaw <;>
        simp [Db.tableWrite, Db.setTxn, hb]
  | loadLock | abort | takeNamespaceOid | takeClassOid | takeAttributeOid | takeConstraintOid
  | insertRow | insert
  | get | getTidForModify | getTidExists => rfl

theorem lockInv_call (h : LockInv env s) {op : CatalogOp} {c : CatalogCall}
    {k : c.Result → CatalogProg Unit} (hrunning : s.running t = some (op, .call c k))
    (hguarded : op.takesLock = false → c.changes env t s.catalog = true → s.catalog.writeLock =
      s.finishTime t) :
    LockInv env { catalog := (c.run env t s.catalog).2
                  running := update s.running t (some (op, k (c.run env t s.catalog).1))
                  changed := update s.changed t (s.changed t || c.changes env t s.catalog) } := by
  obtain ⟨hactive, P, hP, hstable, hwithin⟩ := h.threads t op _ hrunning
  obtain ⟨hallowed, M, hM, hstable', hrest⟩ := hwithin.step hP
  have htxns := fun u => @CatalogProg.txns_run env t c s.catalog u
  have ht : s.ctl t ≠ .idle := by rw [ctl, hactive]; simp
  have hkeeps : ∀ u, s.ctl u ≠ .idle → u ≠ t → s.catalog.writeLock = s.finishTime u →
      (c.run env t s.catalog).2.writeLock = s.finishTime u := fun u hu hut hlock =>
    h.keeps_lock ht hallowed hu hut hlock
  -- with the lock in hand a call keeps it
  have hown : s.catalog.writeLock = s.finishTime t → (c.run env t s.catalog).2.writeLock =
      s.finishTime t := by
    intro hlock
    by_cases hplain : Plain c
    · exact (writeLock_run hplain _).trans hlock
    · cases c with
      | compareExchange expected desired =>
          rw [CatalogCall.run_compareExchange]
          split
          · exact hallowed.1
          · exact hlock
      | loadLock | abort | takeNamespaceOid | takeClassOid | takeAttributeOid
      | takeConstraintOid | insertRow
      | insertUnique | insert | get | getTidForModify | getTidExists | deleteUndoRaw =>
          exact absurd trivial hplain
  refine h.next ?_ ?_ (fun u => (htxns u).1) (fun u => (htxns u).2.1) ?_ ?_ ?_ ?_
  · rw [time_run]
    exact h.below
  · rw [time_run]
  · intro u hu
    rw [ctl, ← (htxns u).2.2]
    exact hu
  · intro u hchanged
    change update s.changed t _ u = true at hchanged
    show ((c.run env t s.catalog).2.db.txns u).ctl ≠ .idle
    rw [(htxns u).2.2]
    by_cases hut : u = t
    · rw [hut]
      exact ht
    · rw [update_of_ne hut] at hchanged
      exact h.begun u hchanged
  · intro u hu hchanged
    change update s.changed t _ u = true at hchanged
    have hu' : s.ctl u = .active := (htxns u).2.2.symm.trans hu
    by_cases hut : u = t
    · subst hut
      rw [update_self, Bool.or_eq_true] at hchanged
      refine hown ?_
      rcases hchanged with hold | hnow
      · exact h.owner u hu' hold
      · cases hlock : op.takesLock with
        | false => exact hguarded hlock hnow
        | true =>
            rw [hlock] at hallowed
            cases c <;> first | exact hallowed rfl hnow | exact absurd hnow Bool.false_ne_true
    · rw [update_of_ne hut] at hchanged
      exact hkeeps u (h.begun u hchanged) hut (h.owner u hu' hchanged)
  · intro u op' p hp
    change update s.running t _ u = some (op', p) at hp
    by_cases hut : u = t
    · subst hut
      rw [update_self] at hp
      obtain ⟨rfl, rfl⟩ := Prod.mk.inj (Option.some.inj hp)
      refine ⟨(htxns u).2.2.trans hactive, M, hM, ?_, ?_⟩
      · rw [(htxns u).2.1]
        exact hstable'
      · rw [(htxns u).1, (htxns u).2.1]
        exact hrest
    · rw [update_of_ne hut] at hp
      have hbounded := h.threads u op' p hp
      refine hbounded.other ((htxns u).2.2.trans hbounded.1) (htxns u).1 (htxns u).2.1
        fun hlock => ?_
      exact hkeeps u (by rw [ctl, hbounded.1]; simp) hut hlock

/-- One step keeps the invariant where the condition is met. -/
theorem lockInv_step {a : ThreadAction} (h : LockInv env s) (hguarded : s.Guarded env a)
    (hstep : s.step env a = some s') : LockInv env s' := by
  cases a with
  | begin t =>
      change (if s.ctl t = .idle then some _ else none) = some s' at hstep
      split at hstep
      · rename_i hidle
        obtain rfl := Option.some.inj hstep
        exact lockInv_begin h hidle (of_decide_eq_true hguarded)
      · exact absurd hstep (by simp)
  | commit t stops =>
      change (if s.ctl t = .active ∧ (s.running t).isNone ∧ s.catalog.rollback t = false
        then some _ else none) =
        some s' at hstep
      split at hstep
      · rename_i hcommit
        obtain rfl := Option.some.inj hstep
        exact lockInv_commit h hcommit.1 (Option.isNone_iff_eq_none.mp hcommit.2.1)
          (of_decide_eq_true hguarded) stops
      · exact absurd hstep (by simp)
  | start t op =>
      change (if s.ctl t = .active ∧ (s.running t).isNone then some _ else none) = some s' at hstep
      split at hstep
      · rename_i hstart
        obtain rfl := Option.some.inj hstep
        exact lockInv_start h op hstart.1
      · exact absurd hstep (by simp)
  | run t =>
      change s.runNext env t = some s' at hstep
      unfold runNext at hstep
      change (match s.running t with
        | some (op, .call c _) => op.takesLock || !c.changes env t s.catalog ||
            s.catalog.writeLock = s.finishTime t
        | _ => true) = true at hguarded
      cases hrunning : s.running t with
      | none =>
          rw [hrunning] at hstep
          exact absurd hstep (by simp)
      | some next =>
          obtain ⟨op, p⟩ := next
          rw [hrunning] at hstep hguarded
          cases p with
          | done a =>
              obtain rfl := Option.some.inj hstep
              exact lockInv_return h
          | fail e =>
              obtain rfl := Option.some.inj hstep
              exact lockInv_return h
          | call c k =>
              obtain rfl := Option.some.inj hstep
              refine lockInv_call h hrunning fun hlock hchanges => ?_
              simpa [hlock, hchanges] using hguarded

/-! ## Exclusion -/

/-- **At most one transaction that has not ended has changed the catalog**, in every run in
which the operations that do not take the lock change nothing without it. -/
theorem catalog_exclusive (hr : (system env).ReachableBy (Guarded env) s) : s.Exclusive :=
  LockInv.exclusive (hr.invariant (P := LockInv env) (fun _ h => lockInv_init h)
    fun _ _ _ hinv hguarded hstep => lockInv_step hinv hguarded hstep)

/-- The catalog as `Builder` makes it. -/
def initial : CatalogThreads := ⟨.fresh, fun _ => none, fun _ => false⟩

theorem initial_init : initial.Init := ⟨DatabaseCatalog.fresh_init, fun _ => rfl, fun _ => rfl⟩

/-- Transaction 0 takes the lock for a namespace and inserts its row. -/
def lockedInsert : List ThreadAction :=
  [.begin 0, .start 0 (.createNamespace [byte 97]), .run 0, .run 0, .run 0, .run 0]

/-- Transaction 1 wants to do the same. -/
theorem catalog_exclusive_second : ∃ s, (system .plain).exec (Guarded .plain) initial
      (lockedInsert ++ [.begin 1, .start 1 (.createNamespace [byte 98]), .run 1, .run 1, .run 1]) =
        some s ∧
    s.changed 0 = true ∧ s.Exclusive := by
  let s := ((system .plain).exec (Guarded .plain) initial
    (lockedInsert ++ [.begin 1, .start 1 (.createNamespace [byte 98]), .run 1, .run 1, .run 1])).get
      (by decide)
  have hrun : (system .plain).exec (Guarded .plain) initial
      (lockedInsert ++ [.begin 1, .start 1 (.createNamespace [byte 98]), .run 1, .run 1, .run 1]) =
        some s :=
    (Option.some_get _).symm
  exact ⟨s, hrun, by decide, catalog_exclusive ⟨initial, initial_init, .of_exec _ hrun⟩⟩

/-- Transaction 1 renames a namespace that does not exist, which inserts a row. -/
theorem catalog_not_exclusive :
    ¬ ∀ (env : CatalogEnv) (s : CatalogThreads), (system env).Reachable s → s.Exclusive := by
  intro hall
  let schedule : List ThreadAction :=
    lockedInsert ++ [.begin 1, .start 1 (.updateNamespaceName 7 [byte 98]), .run 1, .run 1, .run 1]
  let s := ((system .plain).exec TSys.Always initial schedule).get (by decide)
  have hrun : (system .plain).exec TSys.Always initial schedule = some s := (Option.some_get _).symm
  have hsame : (0 : TxnId) = 1 := hall .plain s ⟨initial, initial_init, .of_exec _ hrun⟩ 0 1
    (by decide) (by decide) (by decide) (by decide)
  exact absurd hsame (by decide)

end CatalogThreads

end Db7
