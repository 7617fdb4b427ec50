import Db7.Access.StoreReads
import Db7.Txn.Snapshots

/-!
# The database without the calls under way

The database with the calls under way taken for over or for not begun (`Db.settled`): an update is
over once it has written its row, a delete once it has linked its record, a call that fails once it
has tested the head, and a commit once it has its commit time. Where the writes of a tuple keep to
one path (`OnePath`),

* **calls** (`callInv_step`): what a write has found out about the head of the chain is still true
  when it takes effect, although others may have linked records meanwhile;
* **versions** (`hasConflict_settled`, `kind_settled`): a transaction under way finds in the settled
  database the same versions, and the same conflicts.
-/

namespace Db7

open Lib Function

/-- The result of a write that has taken effect. -/
def WritePc.outcome (op : WriteOp) : WritePc → Option Bool
  | .exit ok => some ok
  | .link _ => if op.isDelete then none else some true
  | .load | .check _ | .apply _ => none

/-- The write holds a head that it has loaded. -/
def WritePc.holds : WritePc → Bool
  | .check _ | .apply _ | .link _ => true
  | .load | .exit _ => false

theorem WritePc.outcome_update (chunk : DataChunk) (head : Option RecPtr) :
    (WritePc.link head).outcome (.update chunk) = some true := rfl

/-- The record that an update will link to a tuple it has written. -/
def Ctl.unlinked : Ctl → Slot → Option Nat
  | .writing (.update _) slot rec (.link _), x => if slot = x then some rec else none
  | _, _ => none

/-- `Table::Delete` has linked its record and will set the bit. -/
def Ctl.unmarked : Ctl → Slot → Bool
  | .writing .delete slot _ (.exit true), x => decide (slot = x)
  | _, _ => false

/-- The transaction with its call over or not begun. -/
def Txn.settled (x : Txn) : Txn :=
  match x.ctl with
  | .idle | .active | .committed _ => x
  | .spinning | .locked => { x with ctl := .active }
  | .restamping c _ => { x with ctl := .committed c, undo := x.undo.map fun r => r.setTimestamp c }
  | .writing op slot rec pc =>
      match pc.outcome op with
      | none => { x with ctl := .active, undo := x.undo.take rec }
      | some ok => { x with ctl := .active, returned := (op, slot, ok) :: x.returned }

namespace Db

/-- The record that the holder of the page's latch will link to the tuple. -/
def unlinked (s : Db) (x : Slot) : Option RecPtr :=
  (s.latch x.tbl x.pid).bind fun t => ((s.txns t).ctl.unlinked x).map fun rec => ⟨t, rec⟩

/-- The holder of the page's latch will set the tuple's delete bit. -/
def unmarked (s : Db) (x : Slot) : Bool :=
  (s.latch x.tbl x.pid).any fun t => (s.txns t).ctl.unmarked x

/-- The database with the calls under way over or not begun. -/
def settled (s : Db) : Db :=
  { s with
    commitLatch := 0
    txns := fun t => (s.txns t).settled
    versions := fun x => (s.unlinked x).toList ++ s.versions x
    deletedBit := fun x => s.deletedBit x || s.unmarked x
    latch := fun _ _ => none }

variable {path : Slot → Bool} {s s' : Db} {a : Action} {t u : TxnId} {x : Slot}
  {op : WriteOp} {rec : Nat} {pc : WritePc} {p : RecPtr} {head : Option RecPtr}

/-! ## What a write knows of the head -/

/-- A write under way: its record is as it was made until the write takes effect, its test of the
head still holds, and what others have linked above the head since is out of its snapshot. -/
structure WriteCall (s : Db) (t : TxnId) (op : WriteOp) (x : Slot) (rec : Nat) (pc : WritePc) :
    Prop where
  record : pc.outcome op = none → (s.txns t).undo[rec]? = some (newRecord (s.txns t).finish x op)
  unblocked : pc.tested = true → s.blocked (s.txns t) x pc.head op = false
  newer : pc.holds = true → ∃ new rest, s.versions x = new ++ rest ∧ rest.head? = pc.head ∧
    ∀ p ∈ new, ¬ s.InSnapshot t p.owner

/-- The writes under way. -/
def CallInv (s : Db) : Prop :=
  ∀ t op x rec pc, (s.txns t).ctl = .writing op x rec pc → s.WriteCall t op x rec pc

/-- What a write sees of the head: its conflict, the bit on the page or the type of the version. -/
theorem blocked_congr {x' y : Txn} (hconflict : s'.hasConflict x' head = s.hasConflict y head)
    (hbit : latched op = true → s'.deletedBit x = s.deletedBit x)
    (hkind : latched op = false → head.bind s'.kind = head.bind s.kind) :
    s'.blocked x' x head op = s.blocked y x head op := by
  have hdeleted : ∀ s : Db, (head.bind s.record).any UndoRecord.isDeleted =
      decide (head.bind s.kind = some .delete) := by
    intro s
    cases head with
    | none => rfl
    | some p =>
        cases hr : s.record p <;> simp [kind, hr, UndoRecord.isDeleted]
  cases op with
  | update chunk => simp only [blocked, hconflict, hbit rfl]
  | delete => simp only [blocked, hconflict, hbit rfl]
  | deleteRaw => simp only [blocked, hconflict, hdeleted, hkind rfl]

/-- A transaction that goes on keeps its snapshot. -/
theorem inSnapshot_run (h : Snapshots s) (hrun : (s.txns t).running = true)
    (hrun' : (s'.txns t).running = true)
    (hs : Stepped s a s') : s'.InSnapshot t u ↔ s.InSnapshot t u := by
  by_cases hown : t = a.txn
  · -- its own step moves nobody else
    subst hown
    have hstart : (s'.txns a.txn).start = (s.txns a.txn).start := by
      rcases hs.kind with ⟨t, rfl, hctl, rfl⟩ | ⟨t, rfl, hctl, rfl⟩ | ⟨t, rfl, hctl, rfl⟩ | ⟨t,
        rfl, hctl, rfl⟩ |
        ⟨t, c, i, rfl, hctl, -, rfl⟩ | ⟨t, c, i, rfl, hctl, -, rfl⟩ | ⟨t, w⟩
      · simp [Action.txn, Txn.running] at hrun'
      · simp [Action.txn, Txn.running, hctl] at hrun
      · simp [Action.txn, Txn.running] at hrun'
      · simp [Action.txn, Txn.running] at hrun'
      · simp [Action.txn, Txn.running, hctl] at hrun
      · simp [Action.txn, Txn.running, hctl] at hrun
      · by_cases ht : a.txn = t
        · rw [ht]
          exact w.start
        · rw [w.others _ ht]
    unfold InSnapshot
    by_cases hu : u = a.txn
    · simp [hu]
    · rw [hs.txns_of_ne hu, hstart]
  · exact inSnapshot_step h hrun hs hown

/-- A step does not change what a transaction that goes on finds in a version. -/
theorem hasConflict_run (hb : HandsOutBelow signBit s a) (hc : CommitInv signBit s)
    (hi : ChainInv s) (ht : TupleInv s) (h : Snapshots s) (hrun : (s.txns t).running = true)
    (hrun' : (s'.txns t).running = true)
    (hstep : s.step a = some s') (hp : p ∈ s.versions x) :
    s'.hasConflict (s'.txns t) (some p) = s.hasConflict (s.txns t) (some p) := by
  have hbound : signBit < 2 ^ 64 := by decide
  have hs := stepped_of_step hstep
  have hc' := commitInv_step hbound hc hb hstep
  have hi' := chainInv_step hc hi hs
  have h' := snapshots_step hbound hc h hb hstep
  rw [Bool.eq_iff_iff, ← Bool.not_eq_false, ← Bool.not_eq_false, not_iff_not,
    hasConflict_eq_false_iff hc' h' hrun' (hi'.valid x p (hs.mem_versions ht hp)),
    hasConflict_eq_false_iff hc h hrun (hi.valid x p hp)]
  exact inSnapshot_run h hrun hrun' hs

/-- The head that a write holds is a version of its tuple. -/
theorem WriteCall.mem_versions (h : s.WriteCall t op x rec pc) (hholds : pc.holds = true)
    (hp : pc.head = some p) :
    p ∈ s.versions x := by
  obtain ⟨new, rest, hv, hhead, -⟩ := h.newer hholds
  rw [hv]
  exact List.mem_append_right _ (List.mem_of_mem_head? (hhead.trans hp))

theorem holds_of_tested (h : pc.tested = true) : pc.holds = true := by
  cases pc <;> simp_all [WritePc.tested, WritePc.holds]

/-- The test of a head still holds after a step. -/
theorem unblocked_run (hb : HandsOutBelow signBit s a) (hc : CommitInv signBit s) (hi : ChainInv s)
    (ht : TupleInv s) (h : Snapshots s) (hrun : (s.txns t).running = true)
    (hrun' : (s'.txns t).running = true)
    (hstep : s.step a = some s') (hmem : ∀ p, head = some p → p ∈ s.versions x)
    (hblocked : s.blocked (s.txns t) x head op = false)
    (hbit : latched op = true → s'.deletedBit x = s.deletedBit x) :
    s'.blocked (s'.txns t) x head op = false := by
  rw [← hblocked]
  refine blocked_congr ?_ hbit fun _ => ?_
  · cases head with
    | none => rfl
    | some p => exact hasConflict_run hb hc hi ht h hrun hrun' hstep (hmem p rfl)
  · cases head with
    | none => rfl
    | some p => exact (stepped_of_step hstep).kind_eq hc hi (hmem p rfl)

/-- The bit of a tuple changes at the end of its delete. -/
theorem Stepped.deletedBit_eq (hs : Stepped s a s') (x : Slot) : s'.deletedBit x = s.deletedBit x ∨
    ∃ rec, (s.txns a.txn).ctl = .writing .delete x rec (.exit true) ∧
      (s'.txns a.txn).ctl = .active := by
  cases hs with
  | spin _ =>
      unfold tryLatch
      split <;> exact .inl rfl
  | check _ =>
      simp only [checkHead]
      split <;> exact .inl rfl
  | link _ =>
      unfold Db.link
      split <;> exact .inl rfl
  | @exit t op slot rec ok hctl =>
      by_cases hdelete : op = .delete ∧ ok = true
      · obtain ⟨rfl, rfl⟩ := hdelete
        by_cases hx : x = slot
        · subst hx
          exact .inr ⟨rec, hctl, by simp [finishWrite, Action.txn]⟩
        · exact .inl (by simp [finishWrite, hx])
      · exact .inl (by simp only [finishWrite, if_neg hdelete])
  | _ => exact .inl rfl

/-- The invariants of runs in which the writes of a tuple keep to one path. -/
structure RunInv (path : Slot → Bool) (s : Db) : Prop where
  commit : CommitInv signBit s
  chain : ChainInv s
  tuple : TupleInv s
  latch : LatchInv s
  path : PathInv path s
  snapshots : Snapshots s

theorem runInv_init (h : s.Init) : RunInv path s :=
  ⟨commitInv_init h, chainInv_init h, tupleInv_init h, latchInv_reachable ⟨s, h, .refl⟩,
    pathInv_init h,
    snapshots_init h⟩

theorem runInv_step (h : RunInv path s) (hb : HandsOutBelow signBit s a) (hpath : OnePath path a)
    (hstep : s.step a = some s') : RunInv path s' := by
  have hbound : signBit < 2 ^ 64 := by decide
  have hs := stepped_of_step hstep
  exact ⟨commitInv_step hbound h.commit hb hstep, chainInv_step h.commit h.chain hs,
    tupleInv_step h.commit h.chain h.tuple hs, latchInv_step h.latch hs,
    pathInv_step h.commit h.chain h.tuple h.latch h.path hpath hs,
      snapshots_step hbound h.commit h.snapshots hb hstep⟩

/-- A call after a step of another transaction. -/
theorem CallInv.frame (h : CallInv s) (hi : RunInv path s) (hb : HandsOutBelow signBit s a)
    (hstep : s.step a = some s') (hne : t ≠ a.txn) (hctl : (s.txns t).ctl = .writing op x rec pc) :
    s'.WriteCall t op x rec pc := by
  have hs := stepped_of_step hstep
  have hcall := h t op x rec pc hctl
  have hrun : (s.txns t).running = true := running_of_writing hctl
  have htxn := hs.txns_of_ne hne
  have hrun' : (s'.txns t).running = true := htxn ▸ hrun
  refine ⟨fun hout => ?_, fun htested => ?_, fun hholds => ?_⟩
  · rw [htxn]
    exact hcall.record hout
  · refine unblocked_run hb hi.commit hi.chain hi.tuple hi.snapshots hrun hrun' hstep
      (fun p => hcall.mem_versions (holds_of_tested htested)) (hcall.unblocked htested)
        fun hlatched => ?_
    refine (hs.deletedBit_eq x).resolve_right ?_
    rintro ⟨rec', hctl', -⟩
    -- another delete of the tuple would hold the same latch
    have hmine := hi.latch _ _ _ _ _ hctl hlatched
    exact hne (Option.some.inj (hmine.symm.trans (hi.latch _ _ _ _ _ hctl' rfl)))
  · obtain ⟨new, rest, hv, hhead, hout⟩ := hcall.newer hholds
    have hsnap : ∀ u, s'.InSnapshot t u ↔ s.InSnapshot t u :=
      fun u => inSnapshot_step hi.snapshots hrun hs hne
    rcases hs.chain_cases x with hv' | ⟨hnew, -, -⟩ | ⟨op', rec', -, hv', -⟩
    · exact ⟨new, rest, hv'.trans hv, hhead, fun p hp => (hsnap _).not.mpr (hout p hp)⟩
    · exact absurd (hi.chain.loop _ _ _ _ _ hctl).allocated (by omega)
    · refine ⟨⟨a.txn, rec'⟩ :: new, rest, by rw [hv', hv, List.cons_append], hhead, fun p hp => ?_⟩
      rw [hsnap]
      rcases List.mem_cons.mp hp with rfl | hp
      · exact not_inSnapshot hs hne
      · exact hout p hp

/-- A call after its own step. -/
theorem CallInv.own (h : CallInv s) (hi : RunInv path s) (hb : HandsOutBelow signBit s a)
    (hstep : s.step a = some s') (hctl : (s'.txns a.txn).ctl = .writing op x rec pc) :
    s'.WriteCall a.txn op x rec pc := by
  have hs := stepped_of_step hstep
  have hrun' : (s'.txns a.txn).running = true := running_of_writing hctl
  have hbit : s'.deletedBit x = s.deletedBit x := by
    refine (hs.deletedBit_eq x).resolve_right ?_
    rintro ⟨_, -, hactive⟩
    exact absurd (hctl.symm.trans hactive) (by simp)
  -- what holds of a head that the call has held before
  have hunblocked : ∀ {head}, (s.txns a.txn).running = true →
      (∀ p, head = some p → p ∈ s.versions x) →
      s.blocked (s.txns a.txn) x head op = false → s'.blocked (s'.txns a.txn) x head op = false :=
    fun hrun hmem hblocked => unblocked_run hb hi.commit hi.chain hi.tuple hi.snapshots hrun hrun'
      hstep hmem hblocked
      fun _ => hbit
  have hnewer : ∀ {head}, (s.txns a.txn).running = true → s'.versions x = s.versions x →
      (∃ new rest, s.versions x = new ++ rest ∧ rest.head? = head ∧ ∀ p ∈ new,
        ¬ s.InSnapshot a.txn p.owner) →
      ∃ new rest, s'.versions x = new ++ rest ∧ rest.head? = head ∧ ∀ p ∈ new,
        ¬ s'.InSnapshot a.txn p.owner := by
    rintro head hrun hv ⟨new, rest, heq, hhead, hout⟩
    exact ⟨new, rest, hv.trans heq, hhead, fun p hp =>
      (inSnapshot_run hi.snapshots hrun hrun' hs).not.mpr (hout p hp)⟩
  cases hs with
  | spin hold =>
      unfold tryLatch at hctl
      split at hctl <;> simp [Action.txn, hold] at hctl
  | insert hold _ => simp [Action.txn, insertTuple, hold] at hctl
  | @start t op' slot' _ _ _ =>
      obtain ⟨rfl, rfl, rfl, rfl⟩ : op' = op ∧ slot' = x ∧ (s.txns t).undo.length = rec ∧
          WritePc.load = pc := by
        simpa [Action.txn, startWrite] using hctl
      exact ⟨fun _ => by simp [startWrite, Action.txn], by simp [WritePc.tested],
        by simp [WritePc.holds]⟩
  | @load t op' slot' rec' hold =>
      simp only [Action.txn, setPc, setTxn_txns, update_self, Ctl.writing.injEq] at hctl
      obtain ⟨rfl, rfl, rfl, rfl⟩ := hctl
      have hcall := h _ _ _ _ _ hold
      exact ⟨fun _ => by simpa [Action.txn, setPc] using hcall.record rfl, by simp [WritePc.tested],
        fun _ => ⟨[], s.versions slot', rfl, rfl, by simp⟩⟩
  | @check t op' slot' rec' head hold =>
      have hcall := h _ _ _ _ _ hold
      have hrun : (s.txns t).running = true := running_of_writing hold
      by_cases hblocked : s.blocked (s.txns t) slot' head op' = true
      · simp only [checkHead, if_pos hblocked, Action.txn, setPc, setTxn_txns, update_self,
          Ctl.writing.injEq] at hctl
        obtain ⟨rfl, rfl, rfl, rfl⟩ := hctl
        exact ⟨by simp [WritePc.outcome], by simp [WritePc.tested], by simp [WritePc.holds]⟩
      · have hctl₀ := hctl
        simp only [checkHead, if_neg hblocked, Action.txn, setPc, setTxn_txns, update_self,
          Ctl.writing.injEq] at hctl
        obtain ⟨rfl, rfl, rfl, rfl⟩ := hctl
        refine ⟨fun _ => ?_, fun _ => ?_, fun _ => ?_⟩
        · simpa [Action.txn, checkHead, hblocked, setPc] using hcall.record rfl
        · rw [passed_head]
          exact hunblocked hrun (fun p => hcall.mem_versions rfl) (Bool.eq_false_iff.mpr hblocked)
        · rw [passed_head]
          exact hnewer hrun (by rw [checkHead_versions]) (hcall.newer rfl)
  | @apply t chunk slot' rec' head hold =>
      have hcall := h _ _ _ _ _ hold
      have hrun : (s.txns t).running = true := running_of_writing hold
      simp only [Action.txn, applyUpdate, setPc, setTxn_txns, update_self,
        Ctl.writing.injEq] at hctl
      obtain ⟨rfl, rfl, rfl, rfl⟩ := hctl
      exact ⟨by simp [WritePc.outcome, WriteOp.isDelete],
        fun _ => hunblocked hrun (fun p => hcall.mem_versions rfl) (hcall.unblocked rfl),
        fun _ => hnewer hrun rfl (hcall.newer rfl)⟩
  | @link t op' slot' rec' head hold =>
      have hcall := h _ _ _ _ _ hold
      by_cases hhead : (s.versions slot').head? = head
      · have heq :
            (s.link t op' slot' rec' head).txns t =
            setPc (s.txns t) op' slot' rec' (.exit true) := by
          simp [Db.link, hhead]
        rw [Action.txn, heq, setPc] at hctl
        obtain ⟨rfl, rfl, rfl, rfl⟩ := Ctl.writing.inj hctl
        exact ⟨by simp [WritePc.outcome], by simp [WritePc.tested], by simp [WritePc.holds]⟩
      · have heq :
            (s.link t op' slot' rec' head).txns t = setPc (s.txns t) op' slot' rec' .load := by
          simp [Db.link, hhead]
        rw [Action.txn, heq, setPc] at hctl
        obtain ⟨rfl, rfl, rfl, rfl⟩ := Ctl.writing.inj hctl
        -- an update holds the head, so its swap finds it
        have hdelete : op'.isDelete = true := by
          have hpath := (hi.path.call _ _ _ _ _ hold).current
          cases op' with
          | update chunk => exact absurd (hpath rfl (by simp) (by simp)) hhead
          | delete => rfl
          | deleteRaw => rfl
        refine ⟨fun _ => ?_, by simp [WritePc.tested], by simp [WritePc.holds]⟩
        rw [Action.txn, heq]
        exact hcall.record (by simp [WritePc.outcome, hdelete])
  | _ => simp [Action.txn, finishWrite, restampOne] at hctl

theorem callInv_step (h : CallInv s) (hi : RunInv path s) (hb : HandsOutBelow signBit s a)
    (hstep : s.step a = some s') : CallInv s' := by
  intro t op x rec pc hctl
  by_cases hown : t = a.txn
  · subst hown
    exact h.own hi hb hstep hctl
  · rw [(stepped_of_step hstep).txns_of_ne hown] at hctl
    exact h.frame hi hb hstep hown hctl

/-! ## The settled database -/

section Settled

@[simp] theorem settled_time (s : Db) : s.settled.time = s.time := rfl

@[simp] theorem settled_txns (s : Db) (t : TxnId) : s.settled.txns t = (s.txns t).settled := rfl

@[simp] theorem settled_schema (s : Db) : s.settled.schema = s.schema := rfl

@[simp] theorem settled_count (s : Db) : s.settled.count = s.count := rfl

@[simp] theorem settled_rows (s : Db) : s.settled.rows = s.rows := rfl

@[simp] theorem settled_versions (s : Db) (x : Slot) :
    s.settled.versions x = (s.unlinked x).toList ++ s.versions x :=
  rfl

@[simp] theorem settled_deletedBit (s : Db) (x : Slot) :
    s.settled.deletedBit x = (s.deletedBit x || s.unmarked x) :=
  rfl

theorem settled_of_active {y : Txn} (h : y.ctl = .active) : y.settled = y := by
  simp [Txn.settled, h]

theorem settled_of_none {y : Txn} (hctl : y.ctl = .writing op x rec pc)
    (hout : pc.outcome op = none) :
    y.settled = { y with ctl := .active, undo := y.undo.take rec } := by
  simp [Txn.settled, hctl, hout]

theorem settled_of_some {y : Txn} {ok : Bool} (hctl : y.ctl = .writing op x rec pc)
    (hout : pc.outcome op = some ok) :
    y.settled = { y with ctl := .active, returned := (op, x, ok) :: y.returned } := by
  simp [Txn.settled, hctl, hout]

/-- Start and finish time stay. -/
theorem settled_times (y : Txn) : y.settled.start = y.start ∧ y.settled.finish = y.finish := by
  unfold Txn.settled
  split
  · exact ⟨rfl, rfl⟩
  · exact ⟨rfl, rfl⟩
  · exact ⟨rfl, rfl⟩
  · exact ⟨rfl, rfl⟩
  · exact ⟨rfl, rfl⟩
  · exact ⟨rfl, rfl⟩
  · split <;> exact ⟨rfl, rfl⟩

/-- Before the first call nothing is under way. -/
theorem settled_init (h : s.Init) : s.settled = s := by
  obtain ⟨-, hcommit, htxns, -, hlatch⟩ := h
  have hunlinked : ∀ x, s.unlinked x = none := fun x => by simp [unlinked, hlatch]
  have hunmarked : ∀ x, s.unmarked x = false := fun x => by simp [unmarked, hlatch]
  refine Db.ext rfl hcommit.symm (funext fun t => ?_) (funext fun x => ?_) rfl rfl rfl
    (funext fun x => ?_)
    (funext fun tbl => funext fun pid => (hlatch tbl pid).symm)
  · rw [settled_txns, htxns]
    rfl
  · simp [hunlinked]
  · simp [hunmarked]

/-- A step of `t` that changes nothing the settled database shows. -/
theorem settled_eq_of {t : TxnId} (others : ∀ u, u ≠ t → s'.txns u = s.txns u)
    (htxn : (s'.txns t).settled = (s.txns t).settled) (htime : s'.time = s.time)
    (hschema : s'.schema = s.schema) (hcount : s'.count = s.count) (hrows : s'.rows = s.rows)
    (hversions : ∀ x, (s'.unlinked x).toList ++ s'.versions x =
      (s.unlinked x).toList ++ s.versions x)
    (hbit : ∀ x, (s'.deletedBit x || s'.unmarked x) = (s.deletedBit x || s.unmarked x)) :
    s'.settled = s.settled := by
  refine Db.ext htime rfl (funext fun u => ?_) (funext hversions) hschema hcount hrows
    (funext hbit) rfl
  by_cases hu : u = t
  · subst hu
    exact htxn
  · rw [settled_txns, settled_txns, others u hu]

/-- The latches stay, and `t` will link the record that it would have linked before. -/
theorem unlinked_congr {t : TxnId} (others : ∀ u, u ≠ t → s'.txns u = s.txns u)
    (hlatch : s'.latch = s.latch) (hctl : (s'.txns t).ctl.unlinked x = (s.txns t).ctl.unlinked x) :
    s'.unlinked x = s.unlinked x := by
  have hall : ∀ u, (s'.txns u).ctl.unlinked x = (s.txns u).ctl.unlinked x := by
    intro u
    by_cases hu : u = t
    · exact hu ▸ hctl
    · rw [others u hu]
  simp only [unlinked, hlatch, hall]

theorem unmarked_congr {t : TxnId} (others : ∀ u, u ≠ t → s'.txns u = s.txns u)
    (hlatch : s'.latch = s.latch) (hctl : (s'.txns t).ctl.unmarked x = (s.txns t).ctl.unmarked x) :
    s'.unmarked x = s.unmarked x := by
  have hall : ∀ u, (s'.txns u).ctl.unmarked x = (s.txns u).ctl.unmarked x := by
    intro u
    by_cases hu : u = t
    · exact hu ▸ hctl
    · rw [others u hu]
  simp only [unmarked, hlatch, hall]

/-- The latches stay, and `t` holds back after the step what it held back before. -/
theorem heldBack_congr (s s' : Db) (t : TxnId) (others : ∀ u, u ≠ t → s'.txns u = s.txns u)
    (hlatch : s'.latch = s.latch)
    (hctl : ∀ x, (s'.txns t).ctl.unlinked x = (s.txns t).ctl.unlinked x ∧
      (s'.txns t).ctl.unmarked x = (s.txns t).ctl.unmarked x) (x : Slot) :
    s'.unlinked x = s.unlinked x ∧ s'.unmarked x = s.unmarked x :=
  ⟨unlinked_congr others hlatch (hctl x).1, unmarked_congr others hlatch (hctl x).2⟩

/-- A step that changes nothing the settled database shows, and no latch. -/
theorem settled_eq_of_ctl {t : TxnId} (others : ∀ u, u ≠ t → s'.txns u = s.txns u)
    (htxn : (s'.txns t).settled = (s.txns t).settled) (htime : s'.time = s.time)
    (hschema : s'.schema = s.schema)
    (hcount : s'.count = s.count) (hrows : s'.rows = s.rows) (hversions : s'.versions = s.versions)
    (hbit : s'.deletedBit = s.deletedBit) (hlatch : s'.latch = s.latch)
    (hctl : ∀ x, (s'.txns t).ctl.unlinked x = (s.txns t).ctl.unlinked x ∧
      (s'.txns t).ctl.unmarked x = (s.txns t).ctl.unmarked x) : s'.settled = s.settled := by
  have hheld := heldBack_congr s s' t others hlatch hctl
  exact settled_eq_of others htxn htime hschema hcount hrows
    (fun x => by rw [(hheld x).1, hversions])
    fun x => by rw [(hheld x).2, hbit]

/-- A version of a tuple in the settled database. -/
theorem record_settled (hi : RunInv path s) (hp : p ∈ s.versions x) : ∃ r r', s.record p = some r ∧
    s.settled.record p = some r' ∧ r'.type = r.type ∧ r'.delta = r.delta ∧
    (r' = r ∨ ∃ c i, (s.txns p.owner).ctl = .restamping c i ∧ r'.timestamp = c) := by
  have hvalid := hi.chain.valid x p hp
  obtain ⟨r, hr⟩ := exists_record hvalid
  have hsame : (s.txns p.owner).settled.undo = (s.txns p.owner).undo → ∃ r r', s.record p = some r ∧
      s.settled.record p = some r' ∧ r'.type = r.type ∧ r'.delta = r.delta ∧
      (r' = r ∨ ∃ c i, (s.txns p.owner).ctl = .restamping c i ∧ r'.timestamp = c) := by
    intro hundo
    refine ⟨r, r, hr, ?_, rfl, rfl, .inl rfl⟩
    rw [record, settled_txns, hundo]
    exact hr
  cases hctl : (s.txns p.owner).ctl with
  | idle | active | committed | spinning | locked =>
      exact hctl ▸ hsame (by simp [Txn.settled, hctl])
  | restamping c i =>
      refine ⟨r, r.setTimestamp c, hr, ?_, rfl, rfl, .inr ⟨c, i, rfl, rfl⟩⟩
      have hr' : (s.txns p.owner).undo[p.idx]? = some r := hr
      simp [record, Txn.settled, hctl, hr']
  | writing op slot rec pc =>
      cases hout : pc.outcome op with
      | some ok => exact hctl ▸ hsame (by rw [settled_of_some hctl hout])
      | none =>
          -- the record that the call has made is in no chain yet
          have hloop := hi.chain.loop _ _ _ _ _ hctl
          have hfresh : p.idx ≠ rec := by
            rintro rfl
            exact hloop.fresh (by rintro rfl; simp [WritePc.outcome] at hout) x hp
          have hlast := hloop.last
          simp only [Valid] at hvalid
          refine ⟨r, r, hr, ?_, rfl, rfl, .inl rfl⟩
          rw [record, settled_txns, settled_of_none hctl hout, List.getElem?_take_of_lt (by omega)]
          exact hr

/-- A transaction under way finds the same conflicts in the settled database. -/
theorem hasConflict_settled (hi : RunInv path s) (hrun : (s.txns t).running = true)
    (hp : p ∈ s.versions x) :
    s.settled.hasConflict (s.txns t).settled (some p) = s.hasConflict (s.txns t) (some p) := by
  obtain ⟨r, r', hr, hr', -, -, htime⟩ := record_settled hi hp
  obtain ⟨hstart, hfinish⟩ := settled_times (s.txns t)
  rcases htime with rfl | ⟨c, i, hctl, htime⟩
  · simp only [hasConflict, Option.bind_some, hr, hr', hstart, hfinish]
  · -- the writer is in its commit, and no longer in anybody's way than before
    have hcommit : (s.txns p.owner).commitTime = some c := by simp [Txn.commitTime, hctl]
    have hlt : (s.txns t).start < c := by
      rcases (hi.snapshots t hrun).commits _ c hcommit with ⟨-, hdone⟩ | hlt
      · simp [hctl] at hdone
      · exact hlt
    have hbelow : c < signBit :=
      lt_of_lt_of_le (hi.commit.below (p.owner, true) c hcommit) hi.commit.time_le
    have hnot : s.hasConflict (s.txns t) (some p) = true := by
      rw [← Bool.not_eq_false, hasConflict_eq_false_iff hi.commit hi.snapshots hrun
        (hi.chain.valid x p hp)]
      rintro (heq | ⟨c', hctl', -⟩)
      · rw [heq] at hctl
        simp [Txn.running, hctl] at hrun
      · simp [hctl] at hctl'
    rw [hnot]
    simp [hasConflict, hr', htime, hstart, hfinish, hasConflictTs, isCommitted_of_lt hbelow,
      isNewerThan, hlt]

theorem kind_settled (hi : RunInv path s) (hp : p ∈ s.versions x) :
    s.settled.kind p = s.kind p := by
  obtain ⟨r, r', hr, hr', htype, -⟩ := record_settled hi hp
  simp [kind, hr, hr', htype]

/-- A write that has not taken effect is the only one that the tuple waits for. -/
theorem unlinked_of_writing (hi : RunInv path s) (hctl : (s.txns t).ctl = .writing op x rec pc)
    (hout : pc.outcome op = none) :
    s.unlinked x = none ∧ (latched op = true → s.unmarked x = false) := by
  have hpath := (hi.path.call _ _ _ _ _ hctl).path
  cases hlatched : latched op with
  | true =>
      have hmine := hi.latch _ _ _ _ _ hctl hlatched
      refine ⟨?_, fun _ => ?_⟩
      · simp only [unlinked, hmine, Option.bind_some, hctl]
        cases op with
        | update chunk =>
            cases pc with
            | link head => simp [WritePc.outcome, WriteOp.isDelete] at hout
            | _ => rfl
        | _ => rfl
      · simp only [unmarked, hmine, Option.any_some, hctl]
        cases op with
        | delete =>
            cases pc with
            | exit ok => simp [WritePc.outcome] at hout
            | _ => rfl
        | _ => rfl
  | false =>
      refine ⟨?_, by simp⟩
      by_contra hsome
      obtain ⟨q, hq⟩ := Option.ne_none_iff_exists'.mp hsome
      obtain ⟨u, -, hu⟩ := Option.bind_eq_some_iff.mp hq
      obtain ⟨rec', hunlinked, -⟩ := Option.map_eq_some_iff.mp hu
      -- the tuple's path is the other one
      cases hctl' : (s.txns u).ctl with
      | writing op' slot' rec'' pc' =>
          have hpath' := (hi.path.call _ _ _ _ _ hctl').path
          rw [hctl'] at hunlinked
          cases op' with
          | update chunk =>
              cases pc' with
              | link head =>
                  obtain ⟨rfl, -⟩ : slot' = x ∧ rec'' = rec' := by
                    simpa [Ctl.unlinked, Option.ite_none_right_eq_some] using hunlinked
                  rw [hlatched, ← hpath'] at hpath
                  simp [latched] at hpath
              | _ => simp [Ctl.unlinked] at hunlinked
          | _ => simp [Ctl.unlinked] at hunlinked
      | _ => simp [hctl', Ctl.unlinked] at hunlinked

end Settled

end Db

end Db7
