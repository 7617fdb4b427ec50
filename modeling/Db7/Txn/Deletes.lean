import Mathlib.Data.List.Count
import Db7.Txn.Lifetimes

/-!
# A tuple is deleted once

`Table::Delete` sets a bit on the page under the page's latch and the next `Update` or `Delete` asks
the bit; `DeleteUndoRaw` takes no latch and asks the newest version. On a tuple whose writes keep to
one of the two paths (`OnePath`) either is enough:

* **step** (`pathInv_step`): a write that goes on has seen that the newest version is no delete, and
  its swap puts the record over just that version;
* **run** (`deleted_once`): of all the calls that delete the tuple, by any transactions, at most one
  returns true, and its record stays the newest version.

With both paths on one tuple this fails: an update after `DeleteUndoRaw` returns true.
-/

namespace Db7

open Lib Function

/-- `DeleteUndo` and `DeleteUndoRaw`. -/
def WriteOp.isDelete : WriteOp → Bool
  | .update _ => false
  | .delete | .deleteRaw => true

/-- The type of the record that a write makes. -/
def WriteOp.recordType : WriteOp → DeltaRecordType
  | .update _ => .update
  | .delete | .deleteRaw => .delete

namespace Db

variable {path : Slot → Bool}

/-- Writes of a tuple latch its page, or none of them does. -/
def OnePath (path : Slot → Bool) : Action → Prop
  | .write _ op slot => latched op = path slot
  | _ => True

instance : (a : Action) → Decidable (OnePath path a)
  | .write _ op slot => inferInstanceAs (Decidable (latched op = path slot))
  | .begin _ => inferInstanceAs (Decidable True)
  | .spin _ => inferInstanceAs (Decidable True)
  | .insert .. => inferInstanceAs (Decidable True)
  | .commit _ => inferInstanceAs (Decidable True)
  | .run _ => inferInstanceAs (Decidable True)

/-- A write under way on its path. -/
structure PathCall (path : Slot → Bool) (s : Db) (t : TxnId) (op : WriteOp) (x : Slot) (rec : Nat)
    (pc : WritePc) :
    Prop where
  path : latched op = path x
  loaded : ∀ p ∈ pc.head, p ∈ s.versions x
  current : latched op = true → pc ≠ .load → (∀ ok, pc ≠ .exit ok) → (s.versions x).head? = pc.head
  tested : pc.tested = true → ∀ p ∈ pc.head, s.kind p ≠ some .delete
  record : pc ≠ .exit false → s.kind ⟨t, rec⟩ = some op.recordType

/-- The call has deleted the tuple, and has not returned. -/
def ending : Ctl → Slot → Nat
  | .writing op slot _ (.exit true), x => if op.isDelete ∧ slot = x then 1 else 0
  | _, _ => 0

/-- The calls that have deleted the tuple and returned true. -/
def deletesReturned (s : Db) (t : TxnId) (x : Slot) : Nat :=
  (s.txns t).returned.countP fun r => r.1.isDelete && decide (r.2 = (x, true))

/-- The delete records of `t` in the chain of a tuple. -/
def deletesLinked (s : Db) (t : TxnId) (x : Slot) : Nat :=
  (s.versions x).countP fun p => decide (p.owner = t ∧ s.kind p = some .delete)

/-- What runs keep in which the writes of a tuple keep to one path. -/
structure PathInv (path : Slot → Bool) (s : Db) : Prop where
  call : ∀ t op x rec pc, (s.txns t).ctl = .writing op x rec pc → PathCall path s t op x rec pc
  last : ∀ x, ∀ q ∈ (s.versions x).tail, s.kind q ≠ some .delete
  marked : ∀ x, path x = true → ∀ p ∈ (s.versions x).head?, s.kind p = some .delete →
    s.deletedBit x = true ∨ ∃ t rec, (s.txns t).ctl = .writing .delete x rec (.exit true)
  told : ∀ t x, s.deletesReturned t x + ending (s.txns t).ctl x = s.deletesLinked t x

section Steps

variable {s s' : Db} {a : Action} {t u : TxnId} {x : Slot} {op : WriteOp} {rec : Nat}
  {pc : WritePc} {p : RecPtr}

/-- What a step does to the chain of one tuple: nothing, its insert, or a swap that finds the
head. -/
theorem Stepped.chain_cases (hs : Stepped s a s') (x : Slot) : s'.versions x = s.versions x ∨
    (x.idx = s.count x.tbl x.pid ∧ s'.versions x = [⟨a.txn, (s.txns a.txn).undo.length⟩] ∧
      s'.kind ⟨a.txn, (s.txns a.txn).undo.length⟩ = some .insert) ∨
    ∃ op rec, (s.txns a.txn).ctl = .writing op x rec (.link (s.versions x).head?) ∧
      s'.versions x = ⟨a.txn, rec⟩ :: s.versions x ∧
        (s'.txns a.txn).ctl = .writing op x rec (.exit true) := by
  cases hs with
  | @insert t tbl pid chunk _ _ =>
      by_cases hx : x = ⟨tbl, pid, s.count tbl pid⟩
      · refine .inr (.inl ⟨by rw [hx], by simp [insertTuple, Action.txn, hx], ?_⟩)
        simp [kind_eq_types, types, insertTuple, Action.txn, UndoRecord.initializeInsert]
      · exact .inl (by simp [insertTuple, hx])
  | @link t op slot rec head hctl =>
      by_cases hfound : (s.versions slot).head? = head
      · by_cases hx : x = slot
        · subst hx
          refine .inr (.inr ⟨op, rec, hfound ▸ hctl, ?_, ?_⟩)
          · simp [Db.link, hfound, Action.txn]
          · simp [Db.link, hfound, Action.txn, setPc]
        · exact .inl (by simp [Db.link, hfound, hx])
      · exact .inl (by simp [Db.link, hfound])
  | spin _ =>
      unfold tryLatch
      split <;> exact .inl rfl
  | check _ => exact .inl (by rw [checkHead_versions])
  | _ => exact .inl rfl

/-- The record that a write has made. -/
theorem kind_startWrite (s : Db) (t : TxnId) (op : WriteOp) (x : Slot) :
    (s.startWrite t op x).kind ⟨t, (s.txns t).undo.length⟩ = some op.recordType := by
  cases op <;> simp [kind, record, startWrite, newRecord, WriteOp.recordType,
    UndoRecord.initializeDelete,
    UndoRecord.initializeUpdate]

/-- The types of the records of the transaction are as before: so are those of its records. -/
theorem kind_eq_of_types (h : s'.types t = s.types t) (i : Nat) :
    s'.kind ⟨t, i⟩ = s.kind ⟨t, i⟩ := by
  rw [kind_eq_types, kind_eq_types, h]

@[simp] theorem passed_head (head : Option RecPtr) (op : WriteOp) :
    (passed head op).head = head := by
  cases op <;> rfl

/-- A test that lets a write go on has seen no delete. -/
theorem PathInv.tested_of_not_blocked {head : Option RecPtr} (h : PathInv path s) (hl : LatchInv s)
    (hctl : (s.txns t).ctl = .writing op x rec (.check head))
    (hb : s.blocked (s.txns t) x head op = false) : ∀ p ∈ head, s.kind p ≠ some .delete := by
  have hcall := h.call _ _ _ _ _ hctl
  rintro p rfl hdel
  cases hlatched : latched op with
  | false =>
      -- `DeleteUndoRaw` looks at the version itself
      obtain rfl : op = .deleteRaw := by cases op <;> simp_all [latched]
      obtain ⟨r, hr, htype⟩ := Option.map_eq_some_iff.mp hdel
      simp [blocked, hr, UndoRecord.isDeleted, htype] at hb
  | true =>
      have hcurrent : (s.versions x).head? = some p := hcall.current hlatched (by simp) (by simp)
      rcases h.marked x (hcall.path ▸ hlatched) p hcurrent hdel with hbit | ⟨u, rec', hctl'⟩
      · cases op <;> simp_all [blocked, latched]
      · -- a delete that has not returned yet would hold the latch
        have hmine := hl _ _ _ _ _ hctl hlatched
        have hother := hl _ _ _ _ _ hctl' rfl
        obtain rfl : t = u := Option.some.inj (hmine.symm.trans hother)
        simp [hctl] at hctl'

/-- A call after its own step. -/
theorem PathInv.own (h : PathInv path s) (hc : CommitInv signBit s) (hi : ChainInv s)
    (hl : LatchInv s) (hpath : OnePath path a) (hs : Stepped s a s')
    (hctl : (s'.txns a.txn).ctl = .writing op x rec pc) :
    PathCall path s' a.txn op x rec pc := by
  have hkeep : ∀ {p y}, p ∈ s.versions y → s'.kind p = s.kind p := fun hp => hs.kind_eq hc hi hp
  -- the record of a call that is not at its test keeps its type
  have hrecord : ∀ {pc'}, (s.txns a.txn).ctl = .writing op x rec pc' → pc' ≠ .exit false →
      (∀ head, pc' ≠ .check head) → s'.kind ⟨a.txn, rec⟩ = some op.recordType := by
    intro pc' hold hexit hcheck
    have hlast := (hi.loop _ _ _ _ _ hold).last
    rw [hs.kind_eq_of_valid hc (by simp only [Valid]; omega) ?_]
    · exact (h.call _ _ _ _ _ hold).record hexit
    · intro op' slot' head hctl'
      obtain ⟨-, -, -, rfl⟩ := Ctl.writing.inj (hold.symm.trans hctl')
      exact hcheck head rfl
  cases hs with
  | spin hold =>
      unfold tryLatch at hctl
      split at hctl <;> simp [Action.txn, hold] at hctl
  | insert hold _ => simp [Action.txn, insertTuple, hold] at hctl
  | @start t op' slot' _ _ _ =>
      obtain ⟨rfl, rfl, rfl, rfl⟩ : op' = op ∧ slot' = x ∧ (s.txns t).undo.length = rec ∧
          WritePc.load = pc := by
        simpa [Action.txn, startWrite] using hctl
      exact ⟨hpath, by simp [WritePc.head], by simp, by simp [WritePc.tested],
        fun _ => kind_startWrite ..⟩
  | @load t op' slot' rec' hold =>
      simp only [Action.txn, setPc, setTxn_txns, update_self, Ctl.writing.injEq] at hctl
      obtain ⟨rfl, rfl, rfl, rfl⟩ := hctl
      exact ⟨(h.call _ _ _ _ _ hold).path, fun p hp => List.mem_of_mem_head? hp, fun _ _ _ => rfl,
        by simp [WritePc.tested], fun _ => hrecord hold (by simp) (by simp)⟩
  | @check t op' slot' rec' head hold =>
      have hcall := h.call _ _ _ _ _ hold
      by_cases hb : s.blocked (s.txns t) slot' head op' = true
      · simp only [checkHead, if_pos hb, Action.txn, setPc, setTxn_txns, update_self,
          Ctl.writing.injEq] at hctl
        obtain ⟨rfl, rfl, rfl, rfl⟩ := hctl
        exact ⟨hcall.path, by simp [WritePc.head], by simp, by simp [WritePc.tested],
          fun h => absurd rfl h⟩
      · have htested := h.tested_of_not_blocked hl hold (by simpa using hb)
        have hs' :
            s.checkHead t op' slot' rec' head =
            s.setTxn t (setPc (s.txns t) op' slot' rec' (passed head op')) := by
          simp only [checkHead, if_neg hb]
        rw [hs'] at hctl hkeep ⊢
        simp only [Action.txn, setPc, setTxn_txns, update_self, Ctl.writing.injEq] at hctl
        obtain ⟨rfl, rfl, rfl, rfl⟩ := hctl
        have hkind :
            (s.setTxn t (setPc (s.txns t) op' slot' rec' (passed head op'))).kind ⟨t, rec'⟩ =
            s.kind ⟨t, rec'⟩ := kind_eq_of_types (by simp [types, setPc]) _
        refine ⟨hcall.path, ?_, fun hlatched _ _ => ?_, fun _ p hp => ?_,
          fun _ => hkind.trans (hcall.record (by simp))⟩
        · rw [passed_head]
          exact hcall.loaded
        · rw [passed_head]
          exact hcall.current hlatched (by simp) (by simp)
        · rw [passed_head] at hp
          rw [hkeep (hcall.loaded p hp)]
          exact htested p hp
  | @apply t chunk slot' rec' head hold =>
      have hcall := h.call _ _ _ _ _ hold
      simp only [Action.txn, applyUpdate, setPc, setTxn_txns, update_self,
        Ctl.writing.injEq] at hctl
      obtain ⟨rfl, rfl, rfl, rfl⟩ := hctl
      refine ⟨hcall.path, hcall.loaded, fun hlatched _ _ => hcall.current hlatched (by simp)
        (by simp), fun _ p hp => ?_,
        fun _ => hrecord hold (by simp) (by simp)⟩
      rw [hkeep (hcall.loaded p hp)]
      exact hcall.tested rfl p hp
  | @link t op' slot' rec' head hold =>
      have hpath := (h.call _ _ _ _ _ hold).path
      by_cases hhead : (s.versions slot').head? = head
      · have heq :
            (s.link t op' slot' rec' head).txns t =
            setPc (s.txns t) op' slot' rec' (.exit true) := by
          simp [Db.link, hhead]
        rw [Action.txn, heq, setPc] at hctl
        obtain ⟨rfl, rfl, rfl, rfl⟩ := Ctl.writing.inj hctl
        exact ⟨hpath, by simp [WritePc.head], by simp, by simp [WritePc.tested],
          fun _ => hrecord hold (by simp) (by simp)⟩
      · have heq :
            (s.link t op' slot' rec' head).txns t = setPc (s.txns t) op' slot' rec' .load := by
          simp [Db.link, hhead]
        rw [Action.txn, heq, setPc] at hctl
        obtain ⟨rfl, rfl, rfl, rfl⟩ := Ctl.writing.inj hctl
        exact ⟨hpath, by simp [WritePc.head], by simp, by simp [WritePc.tested],
          fun _ => hrecord hold (by simp) (by simp)⟩
  | _ => simp [Action.txn, finishWrite, restampOne] at hctl

/-- A call after a step of another transaction. -/
theorem PathInv.frame (h : PathInv path s) (hc : CommitInv signBit s) (hi : ChainInv s)
    (ht : TupleInv s) (hl : LatchInv s) (hs : Stepped s a s') (hne : t ≠ a.txn)
    (hctl : (s.txns t).ctl = .writing op x rec pc) : PathCall path s' t op x rec pc := by
  have hcall := h.call _ _ _ _ _ hctl
  refine ⟨hcall.path, fun p hp => hs.mem_versions ht (hcall.loaded p hp),
    fun hlatched hload hexit => ?_,
    fun htested p hp => ?_, fun hexit => ?_⟩
  · rw [← hcall.current hlatched hload hexit]
    rcases hs.chain_cases x with hv | ⟨hnew, -, -⟩ | ⟨op', rec', hctl', -, -⟩
    · rw [hv]
    · exact absurd (hi.loop _ _ _ _ _ hctl).allocated (by omega)
    · -- a writer of the tuple would hold the same latch
      have hother :=
        hl _ _ _ _ _ hctl' ((h.call _ _ _ _ _ hctl').path.trans (hcall.path ▸ hlatched))
      exact absurd (Option.some.inj ((hl _ _ _ _ _ hctl hlatched).symm.trans hother)) hne
  · rw [hs.kind_eq hc hi (hcall.loaded p hp)]
    exact hcall.tested htested p hp
  · have htypes : s'.types t = s.types t := by rw [types, types, hs.txns_of_ne hne]
    exact (kind_eq_of_types htypes rec).trans (hcall.record hexit)

/-! ## The newest version -/

theorem PathInv.last_step (h : PathInv path s) (hc : CommitInv signBit s) (hi : ChainInv s)
    (hs : Stepped s a s') (x : Slot) : ∀ q ∈ (s'.versions x).tail, s'.kind q ≠ some .delete := by
  intro q hq
  rcases hs.chain_cases x with hv | ⟨-, hv, -⟩ | ⟨op, rec, hctl, hv, -⟩
  · rw [hv] at hq
    rw [hs.kind_eq hc hi (List.mem_of_mem_tail hq)]
    exact h.last x q hq
  · simp [hv] at hq
  · -- the swap puts the record over the version that the test has seen
    rw [hv, List.tail_cons] at hq
    rw [hs.kind_eq hc hi hq]
    have hcall := h.call _ _ _ _ _ hctl
    cases hchain : s.versions x with
    | nil => simp [hchain] at hq
    | cons p rest =>
        rw [hchain] at hq hcall
        rcases List.mem_cons.mp hq with rfl | hq
        · exact hcall.tested rfl q rfl
        · exact h.last x q (by rw [hchain]; exact hq)

/-- The bits of the pages are only set. -/
theorem Stepped.deletedBit (hs : Stepped s a s') (hbit : s.deletedBit x = true) :
    s'.deletedBit x = true := by
  cases hs with
  | spin _ =>
      unfold tryLatch
      split <;> exact hbit
  | check _ =>
      simp only [checkHead]
      split <;> exact hbit
  | link _ =>
      unfold Db.link
      split <;> exact hbit
  | @exit t op slot rec ok _ =>
      simp only [finishWrite]
      split
      · by_cases hx : x = slot
        · rw [hx, update_self]
        · rwa [update_of_ne hx]
      · exact hbit
  | _ => exact hbit

/-- A delete that has linked its record returns, and sets the bit. -/
theorem Stepped.marks (hs : Stepped s a s')
    (hctl : (s.txns t).ctl = .writing .delete x rec (.exit true)) :
    s'.deletedBit x = true ∨ (s'.txns t).ctl = .writing .delete x rec (.exit true) := by
  by_cases hown : t = a.txn
  · subst hown
    cases hs with
    | @exit t op slot rec' ok hold =>
        obtain ⟨rfl, rfl, -, hok⟩ := Ctl.writing.inj (hold.symm.trans hctl)
        obtain rfl := WritePc.exit.inj hok
        exact .inl (by simp [finishWrite])
    | _ => simp_all [Action.txn]
  · exact .inr (by rw [hs.txns_of_ne hown, hctl])

theorem PathInv.marked_step (h : PathInv path s) (hc : CommitInv signBit s) (hi : ChainInv s)
    (hcalls : ∀ t op x rec pc, (s'.txns t).ctl = .writing op x rec pc →
      PathCall path s' t op x rec pc)
    (hs : Stepped s a s') (x : Slot) (hx : path x = true) :
    ∀ p ∈ (s'.versions x).head?, s'.kind p = some .delete →
      s'.deletedBit x = true ∨ ∃ t rec, (s'.txns t).ctl = .writing .delete x rec (.exit true) := by
  intro p hp hdel
  rcases hs.chain_cases x with hv | ⟨-, hv, hkind⟩ | ⟨op, rec, -, hv, hctl⟩
  · rw [hv] at hp
    rw [hs.kind_eq hc hi (List.mem_of_mem_head? hp)] at hdel
    rcases h.marked x hx p hp hdel with hbit | ⟨t, rec, hctl⟩
    · exact .inl (hs.deletedBit hbit)
    · exact (hs.marks hctl).imp_right fun h => ⟨t, rec, h⟩
  · obtain rfl : _ = p := by simpa [hv] using hp
    simp [hkind] at hdel
  · obtain rfl : _ = p := by simpa [hv] using hp
    have hcall := hcalls _ _ _ _ _ hctl
    have htype := (hcall.record (by simp)).symm.trans hdel
    have hlatched := hcall.path.trans hx
    obtain rfl : op = .delete := by cases op <;> simp_all [WriteOp.recordType, latched]
    exact .inr ⟨_, rec, hctl⟩

/-! ## The calls that return true -/

/-- A step that links nothing leaves the deletes in the chains as they are. -/
theorem deletesLinked_congr (hv : s'.versions x = s.versions x)
    (hk : ∀ p ∈ s.versions x, s'.kind p = s.kind p) :
    s'.deletesLinked t x = s.deletesLinked t x := by
  unfold deletesLinked
  rw [hv]
  exact List.countP_congr fun p hp => by rw [hk p hp]

/-- A record that is put on top of the chain. -/
theorem deletesLinked_cons (hv : s'.versions x = p :: s.versions x)
    (hk : ∀ q ∈ s.versions x, s'.kind q = s.kind q) :
    s'.deletesLinked t x = s.deletesLinked t x + if p.owner = t ∧ s'.kind p = some .delete
      then 1 else 0 := by
  unfold deletesLinked
  rw [hv, List.countP_cons, List.countP_congr fun q hq => by rw [hk q hq]]
  simp

/-- The deletes of the transaction of a step. -/
theorem PathInv.told_own (h : PathInv path s) (hc : CommitInv signBit s) (hi : ChainInv s)
    (ht : TupleInv s) (hcalls : ∀ t op x rec pc, (s'.txns t).ctl = .writing op x rec pc →
      PathCall path s' t op x rec pc)
    (hs : Stepped s a s') (x : Slot) :
    s'.deletesReturned a.txn x + ending (s'.txns a.txn).ctl x = s'.deletesLinked a.txn x := by
  have hkeep : ∀ y, ∀ p ∈ s.versions y, s'.kind p = s.kind p := fun y p hp => hs.kind_eq hc hi hp
  have hold := h.told a.txn x
  have hsame : s'.versions x = s.versions x →
      s'.deletesReturned a.txn x + ending (s'.txns a.txn).ctl x =
        s.deletesReturned a.txn x + ending (s.txns a.txn).ctl x →
      s'.deletesReturned a.txn x + ending (s'.txns a.txn).ctl x = s'.deletesLinked a.txn x := by
    intro hv htold
    rw [htold, hold, deletesLinked_congr hv (hkeep x)]
  cases hs with
  | @begin t hidle =>
      -- the transaction has no records yet
      have hnil := (hc.ok t).fresh (.inl hidle)
      have hlinked : s.deletesLinked t x = 0 := by
        refine List.countP_eq_zero.mpr fun p hp => ?_
        have hvalid := hi.valid x p hp
        simp only [decide_eq_true_eq, not_and]
        rintro rfl
        simp [Valid, hnil] at hvalid
      have hlinked' : (s.beginTransaction t).deletesLinked t x = 0 := by
        have hversions : (s.beginTransaction t).versions x = s.versions x := rfl
        rw [deletesLinked_congr hversions (hkeep x), hlinked]
      rw [Action.txn, hlinked']
      simp [deletesReturned, ending]
  | @spin t hspin =>
      refine hsame ?_ ?_
      · unfold tryLatch
        split <;> rfl
      · unfold tryLatch deletesReturned
        split <;> simp [Action.txn, hspin, ending]
  | @insert t tbl pid chunk hactive _ =>
      have htold : (s.insertTuple t tbl pid chunk).deletesReturned t x +
          ending ((s.insertTuple t tbl pid chunk).txns t).ctl x =
            s.deletesReturned t x + ending (s.txns t).ctl x := by
        simp [deletesReturned, insertTuple, hactive, ending]
      by_cases hx : x = ⟨tbl, pid, s.count tbl pid⟩
      · -- the tuple is new
        have hempty : s.versions x = [] := by
          refine List.eq_nil_iff_forall_not_mem.mpr fun p hp => ?_
          have := ht.allocated x p hp
          simp [hx] at this
        have hversions :
            (s.insertTuple t tbl pid chunk).versions x = [⟨t, (s.txns t).undo.length⟩] := by
          simp [insertTuple, hx]
        have hkind : (s.insertTuple t tbl pid chunk).kind ⟨t, (s.txns t).undo.length⟩ =
            some .insert := by
          simp [kind_eq_types, types, insertTuple, UndoRecord.initializeInsert]
        rw [Action.txn] at hold ⊢
        rw [htold, hold, deletesLinked_cons (hversions.trans (by rw [hempty])) (by simp [hempty])]
        simp [hkind]
      · exact hsame (by simp [insertTuple, hx]) htold
  | @start t op slot hactive _ _ =>
      exact hsame rfl (by simp [Action.txn, deletesReturned, startWrite, hactive, ending])
  | @lock t hactive => exact hsame rfl (by simp [Action.txn, deletesReturned, hactive, ending])
  | @checkOut t hlocked => exact hsame rfl (by simp [Action.txn, deletesReturned, hlocked, ending])
  | @restamp t c i hctl _ =>
      exact hsame rfl (by simp [Action.txn, deletesReturned, restampOne, hctl, ending])
  | @unlock t c i hctl _ =>
      exact hsame rfl (by simp [Action.txn, deletesReturned, unlockLatch, hctl, ending])
  | @load t op slot rec hctl =>
      exact hsame rfl (by simp [Action.txn, deletesReturned, setPc, hctl, ending])
  | @check t op slot rec head hctl =>
      refine hsame (by rw [checkHead_versions]) ?_
      simp only [checkHead]
      split
      · simp [Action.txn, deletesReturned, setPc, hctl, ending]
      · cases op <;> simp [Action.txn, deletesReturned, setPc, passed, hctl, ending]
  | @apply t chunk slot rec head hctl =>
      exact hsame rfl (by simp [Action.txn, deletesReturned, applyUpdate, setPc, hctl, ending])
  | @link t op slot rec head hctl =>
      by_cases hfound : (s.versions slot).head? = head
      · have hversions : (s.link t op slot rec head).versions =
            update s.versions slot (⟨t, rec⟩ :: s.versions slot) := by simp [Db.link, hfound]
        by_cases hx : slot = x
        · subst hx
          have hctl' :
              ((s.link t op slot rec head).txns t).ctl = .writing op slot rec (.exit true) := by
            simp [Db.link, hfound, setPc]
          have htype := (hcalls _ _ _ _ _ hctl').record (by simp)
          have hcount :
              (s.link t op slot rec head).deletesReturned t slot = s.deletesReturned t slot := by
            simp [deletesReturned, Db.link, hfound, setPc]
          rw [Action.txn] at hold ⊢
          rw [deletesLinked_cons (by rw [hversions, update_self]) (hkeep slot), ← hold, hcount,
            hctl', htype, hctl]
          cases op <;> simp [ending, WriteOp.isDelete, WriteOp.recordType]
        · refine hsame (by rw [hversions, update_of_ne (Ne.symm hx)]) ?_
          simp [Action.txn, deletesReturned, Db.link, hfound, setPc, hctl, ending, hx]
      · refine hsame (by simp [Db.link, hfound]) ?_
        simp [Action.txn, deletesReturned, Db.link, hfound, setPc, hctl, ending]
  | @exit t op slot rec ok hctl =>
      refine hsame rfl ?_
      cases ok with
      | false => simp [Action.txn, deletesReturned, finishWrite, hctl, ending]
      | true => by_cases hx : slot = x <;>
          simp [Action.txn, deletesReturned, finishWrite, hctl, ending, hx, List.countP_cons]

/-- A step of another transaction neither tells `u` of a delete nor links one for it. -/
theorem PathInv.told_of_ne (h : PathInv path s) (hc : CommitInv signBit s) (hi : ChainInv s)
    (ht : TupleInv s) (hs : Stepped s a s') (hu : u ≠ a.txn) (x : Slot) :
    s'.deletesReturned u x + ending (s'.txns u).ctl x = s'.deletesLinked u x := by
  have hkeep : ∀ p ∈ s.versions x, s'.kind p = s.kind p := fun p hp => hs.kind_eq hc hi hp
  have hlinked : s'.deletesLinked u x = s.deletesLinked u x := by
    rcases hs.chain_cases x with hv | ⟨hnew, hv, -⟩ | ⟨op, rec, -, hv, -⟩
    · exact deletesLinked_congr hv hkeep
    · have hempty : s.versions x = [] := by
        refine List.eq_nil_iff_forall_not_mem.mpr fun q hq => ?_
        exact absurd (ht.allocated x q hq) (by omega)
      rw [deletesLinked_cons (hv.trans (by rw [hempty])) hkeep]
      simp [Ne.symm hu]
    · rw [deletesLinked_cons hv hkeep]
      simp [Ne.symm hu]
  rw [deletesReturned, hs.txns_of_ne hu, hlinked]
  exact h.told u x

/-! ## Whole runs -/

theorem pathInv_init (h : s.Init) : PathInv path s := by
  obtain ⟨-, -, htxns, hversions, -⟩ := h
  refine ⟨fun t op x rec pc hctl => ?_, fun x q hq => ?_, fun x _ p hp => ?_, fun t x => ?_⟩
  · simp [htxns] at hctl
  · simp [hversions] at hq
  · simp [hversions] at hp
  · simp [deletesReturned, deletesLinked, htxns, hversions, ending]

theorem pathInv_step (hc : CommitInv signBit s) (hi : ChainInv s) (ht : TupleInv s)
    (hl : LatchInv s)
    (h : PathInv path s) (hpath : OnePath path a) (hs : Stepped s a s') : PathInv path s' := by
  have hcalls : ∀ t op x rec pc, (s'.txns t).ctl = .writing op x rec pc →
      PathCall path s' t op x rec pc := by
    intro t op x rec pc hctl
    by_cases hown : t = a.txn
    · subst hown
      exact h.own hc hi hl hpath hs hctl
    · rw [hs.txns_of_ne hown] at hctl
      exact h.frame hc hi ht hl hs hown hctl
  refine ⟨hcalls, h.last_step hc hi hs, h.marked_step hc hi hcalls hs, fun t x => ?_⟩
  by_cases hown : t = a.txn
  · subst hown
    exact h.told_own hc hi ht hcalls hs x
  · exact h.told_of_ne hc hi ht hs hown x

theorem pathInv_reachable
    (hr : txnSystem.ReachableBy (fun s a => HandsOutBelow signBit s a ∧ OnePath path a) s) :
    CommitInv signBit s ∧ ChainInv s ∧ TupleInv s ∧ LatchInv s ∧ PathInv path s := by
  have hb : signBit < 2 ^ 64 := by decide
  refine hr.invariant (P := fun s => CommitInv signBit s ∧ ChainInv s ∧ TupleInv s ∧ LatchInv s ∧
    PathInv path s)
    (fun s hinit => ?_) ?_
  · exact ⟨commitInv_init hinit, chainInv_init hinit, tupleInv_init hinit,
      latchInv_reachable ⟨s, hinit, .refl⟩,
      pathInv_init hinit⟩
  · rintro s a s' ⟨hc, hi, ht, hl, h⟩ ⟨hout, hpath⟩ hstep
    have hs := stepped_of_step hstep
    exact ⟨commitInv_step hb hc hout hstep, chainInv_step hc hi hs, tupleInv_step hc hi ht hs,
      latchInv_step hl hs,
      pathInv_step hc hi ht hl h hpath hs⟩

/-- Only the newest version is a delete. -/
theorem PathInv.deletesLinked_eq (h : PathInv path s) (t : TxnId) (x : Slot) : s.deletesLinked t x =
    (s.versions x).head?.toList.countP fun p => decide (p.owner = t ∧ s.kind p = some .delete) := by
  unfold deletesLinked
  cases hchain : s.versions x with
  | nil => rfl
  | cons p rest =>
      have hrest : rest.countP (fun p => decide (p.owner = t ∧ s.kind p = some .delete)) = 0 := by
        refine List.countP_eq_zero.mpr fun q hq => ?_
        have hlast := h.last x q (by rw [hchain]; exact hq)
        simp [hlast]
      rw [List.countP_cons, hrest]
      simp [List.countP_cons]

/-- One call has deleted the tuple at most, and nothing stands over its record. -/
structure DeletedOnce (s : Db) (x : Slot) : Prop where
  once : ∀ t, s.deletesReturned t x ≤ 1
  one : ∀ t u, 0 < s.deletesReturned t x → 0 < s.deletesReturned u x → t = u
  newest : ∀ t, 0 < s.deletesReturned t x → ∃ p ∈ (s.versions x).head?, p.owner = t ∧
    s.kind p = some .delete

/-- **A tuple whose writes keep to one path is deleted once.** -/
theorem deleted_once
    (hr : txnSystem.ReachableBy (fun s a => HandsOutBelow signBit s a ∧ OnePath path a) s)
    (x : Slot) : s.DeletedOnce x := by
  obtain ⟨-, -, -, -, h⟩ := pathInv_reachable hr
  have hle : ∀ t, s.deletesReturned t x ≤ s.deletesLinked t x :=
    fun t => (h.told t x).symm ▸ Nat.le_add_right _ _
  have hnewest : ∀ t, 0 < s.deletesReturned t x →
      ∃ p ∈ (s.versions x).head?, p.owner = t ∧ s.kind p = some .delete := by
    intro t hpos
    have hlinked := lt_of_lt_of_le hpos (hle t)
    rw [h.deletesLinked_eq, List.countP_pos_iff] at hlinked
    obtain ⟨p, hp, hdel⟩ := hlinked
    exact ⟨p, Option.mem_toList.mp hp, of_decide_eq_true hdel⟩
  refine ⟨fun t => ?_, fun t u ht hu => ?_, hnewest⟩
  · refine (hle t).trans ?_
    rw [h.deletesLinked_eq]
    refine List.countP_le_length.trans ?_
    cases (s.versions x).head? <;> simp
  · obtain ⟨p, hp, rfl, -⟩ := hnewest t ht
    obtain ⟨q, hq, rfl, -⟩ := hnewest u hu
    rw [Option.mem_unique hp hq]

/-- Two transactions delete the tuple; the swap of the second finds the record of the first. -/
def bothDelete : List Action :=
  [.begin 0, .spin 0, .begin 1, .spin 1, .write 0 .deleteRaw theTuple, .write 1 .deleteRaw theTuple,
    .run 0, .run 1,
    .run 0, .run 1, .run 0, .run 1, .run 0, .run 1, .run 1, .run 1]

theorem deleted_once_both :
    ∃ s, txnSystem.exec (fun s a => HandsOutBelow signBit s a ∧ OnePath (fun _ => false) a) oneTuple
      bothDelete = some s ∧
      s.deletesReturned 0 theTuple = 1 ∧ s.deletesReturned 1 theTuple = 0 ∧
        s.DeletedOnce theTuple := by
  let s := (txnSystem.exec (fun s a => HandsOutBelow signBit s a ∧ OnePath (fun _ => false) a)
    oneTuple bothDelete).get
    (by decide +kernel)
  have hs : txnSystem.exec (fun s a => HandsOutBelow signBit s a ∧ OnePath (fun _ => false) a)
      oneTuple bothDelete =
      some s := (Option.some_get _).symm
  exact ⟨s, hs, by decide +kernel, by decide +kernel,
    deleted_once ⟨oneTuple, oneTuple_init, .of_exec _ hs⟩ theTuple⟩

end Steps

end Db

end Db7
