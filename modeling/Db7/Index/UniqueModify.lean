import Db7.Index.UniqueLive
import Db7.Txn.Snapshots

/-!
# The tuple to modify

A caller that is to change the row under some columns asks the index for the ids that are stored
there, and `GetTidForModify` for the one to change. The others run between any two of its reads: the
loop reads a version pointer, and then the version behind it (`modifyStep`).

* In every state a transaction under way sees one of the stored tuples at most (`sees_unique`);
* the tuple that the loop stops at is the one that the transaction sees, and it only comes to its
  end when it sees none (`getTidForModify_answer`). It fails only if somebody out of the snapshot
  has written one of the tuples.

Run with nothing in between it is `Db.getTidForModify` (`modifyStep_alone`).
-/

namespace Db7

open Lib Function KeyNormEncoder

/-- Where a call of `GetTidForModify` is: before the tuples `tids`, or at the version of `tid` that
it has read. -/
inductive ModifyPc
  | next (tids : List Nat)
  | judge (tid : Nat) (tids : List Nat) (undo : Option RecPtr)
  | done (result : Except String TupleId)
  deriving DecidableEq, Repr

/-- The transaction whose step this is. -/
def UniqueAction.txn : UniqueAction → TxnId
  | .table a => a.txn
  | .insertUnique t _ _ _ | .run t => t

namespace UniqueIndex

open BTreeIndex (FixedWidth prefixFree_fixedWidth)

/-- The next read of `GetTidForModify`. -/
def modifyStep (s : UniqueIndex) (t : TxnId) : ModifyPc → ModifyPc
  | .next [] => .done (.ok invalidTid)
  | .next (tid :: tids) => .judge tid tids (s.db.versions (s.slotOf tid)).head?
  | .judge tid tids undo =>
      match undo.bind s.db.record with
      | none => .done (.ok (.ofValue tid))
      | some undo =>
          if s.db.conflicts t undo then .done (.error "Conflicting version")
          else if !undo.isDeleted then .done (.ok (.ofValue tid))
          else .next tids
  | .done result => .done result

/-- The writes of a tuple keep to one path. -/
def OnePath (path : Slot → Bool) : UniqueAction → Prop
  | .table a => Db.OnePath path a
  | .insertUnique .. | .run _ => True

instance (path : Slot → Bool) : (a : UniqueAction) → Decidable (OnePath path a)
  | .table a => inferInstanceAs (Decidable (Db.OnePath path a))
  | .insertUnique .. => inferInstanceAs (Decidable True)
  | .run _ => inferInstanceAs (Decidable True)

/-- Timestamps are checked out below the sign bit, the columns of a call are in `S`, and the writes
of a tuple keep to one path. -/
def PathRegular (S : Key → Prop) (path : Slot → Bool) (s : UniqueIndex) (a : UniqueAction) : Prop :=
  Regular signBit S s a ∧ OnePath path a

instance (S : Key → Prop) [DecidablePred S] (path : Slot → Bool) (s : UniqueIndex)
    (a : UniqueAction) :
    Decidable (PathRegular S path s a) := inferInstanceAs (Decidable (_ ∧ _))

/-- A call of `GetTidForModify` by `t` beside the steps of the others; `none` is a read of the
call. -/
def modifySystem (t : TxnId) : TSys (UniqueIndex × ModifyPc) (Option UniqueAction) where
  init _ := True
  step
    | (s, pc), none => some (s, s.modifyStep t pc)
    | (s, pc), some a => (s.step a).map fun s => (s, pc)

/-- The steps beside the call are steps of others, and compute no offset that wraps. -/
def Beside (S : Key → Prop) (path : Slot → Bool) (t : TxnId) (σ : UniqueIndex × ModifyPc) :
    Option UniqueAction → Prop
  | none => True
  | some a => WrapFree (PathRegular S path) σ.1 a ∧ t ≠ a.txn

instance (S : Key → Prop) [DecidablePred S] (path : Slot → Bool) (t : TxnId)
    (σ : UniqueIndex × ModifyPc) :
    (a : Option UniqueAction) → Decidable (Beside S path t σ a)
  | none => inferInstanceAs (Decidable True)
  | some _ => inferInstanceAs (Decidable (_ ∧ _))

/-- What the answer of a call about `tids` says: the tuple is the one that `t` sees, or it sees
none, or somebody out of its snapshot has written one. -/
def ModifyAnswer (s : UniqueIndex) (t : TxnId) (tids : List Nat) : Except String TupleId → Prop
  | .ok tid => (∃ x ∈ tids, tid = .ofValue x ∧ s.db.Sees t (s.slotOf x)) ∨
      tid = invalidTid ∧ ∀ x ∈ tids, ¬ s.db.Sees t (s.slotOf x)
  | .error message => message = "Conflicting version" ∧
      ∃ x ∈ tids, ∃ p ∈ s.db.versions (s.slotOf x), ¬ s.db.InSnapshot t p.owner

variable {s s' : UniqueIndex} {t : TxnId} {S : Key → Prop} {path : Slot → Bool} {columns : Key}
  {tids : List Nat}

/-- With nothing between its reads the call is `GetTidForModify` in one piece. -/
theorem modifyStep_alone (s : UniqueIndex) (t : TxnId) (tids : List Nat) :
    (s.modifyStep t)^[2 * tids.length + 1] (.next tids) =
      .done (s.db.getTidForModify t s.heapTblId (tids.map TupleId.ofValue)) := by
  have hdone : ∀ n result, (s.modifyStep t)^[n] (.done result) = .done result := fun n result =>
    Function.iterate_fixed rfl n
  induction tids with
  | nil => rfl
  | cons tid tids ih =>
      have hcount : 2 * (tid :: tids).length + 1 = 2 * tids.length + 1 + 1 + 1 := by
        rw [List.length_cons]
        omega
      rw [hcount, Function.iterate_succ_apply, Function.iterate_succ_apply, List.map_cons,
        Db.getTidForModify]
      have hread : s.modifyStep t (.next (tid :: tids)) =
          .judge tid tids (s.db.versions (s.slotOf tid)).head? := rfl
      have hundo : (s.db.versions (s.slotOf tid)).head?.bind s.db.record =
          s.db.getDelta (TupleId.ofValue tid) s.heapTblId := rfl
      rw [hread, modifyStep, hundo]
      cases s.db.getDelta (TupleId.ofValue tid) s.heapTblId with
      | none => exact hdone ..
      | some undo =>
          dsimp only
          split
          · exact hdone ..
          · split
            · exact hdone ..
            · exact ih

/-! ## The tables under the index -/

/-- What a step does to the table. -/
theorem db_of_step {a : UniqueAction} (hs : s.step a = some s') : s'.heapTblId = s.heapTblId ∧
    (s'.db = s.db ∨ ∃ b, a = .table b ∧ s.db.step b = some s'.db) := by
  cases a with
  | table b =>
      simp only [step, Option.ite_none_right_eq_some] at hs
      obtain ⟨-, hs⟩ := hs
      obtain ⟨db, hstep, rfl⟩ := Option.map_eq_some_iff.mp hs
      exact ⟨rfl, .inr ⟨b, rfl, hstep⟩⟩
  | insertUnique t columns tid start =>
      simp only [step, Option.ite_none_right_eq_some] at hs
      obtain rfl := Option.some.inj hs.2
      exact ⟨rfl, .inl rfl⟩
  | run t =>
      simp only [step] at hs
      cases hcall : s.calls t with
      | none => simp [hcall] at hs
      | some c =>
          simp only [hcall] at hs
          cases hrun : s.runCall t c with
          | error e => simp [hrun] at hs
          | ok s₁ =>
              simp only [hrun, Option.some.injEq] at hs
              subst hs
              have hkept := (callStep_of_run hrun).kept
              exact ⟨hkept.tbl, .inl hkept.db⟩

/-- The table has run under the same conditions. -/
theorem db_reachable (hr : uniqueSystem.ReachableBy (PathRegular S path) s) :
    txnSystem.ReachableBy (fun s a => Db.HandsOutBelow signBit s a ∧ Db.OnePath path a) s.db := by
  refine hr.invariant (P := fun s => txnSystem.ReachableBy _ s.db)
    (fun s (hinit : s.Init) => ⟨s.db, hinit.1, .refl⟩) ?_
  rintro s a s' hdb ⟨hreg, hpath⟩ hs
  rcases (db_of_step hs).2 with heq | ⟨b, rfl, hstep⟩
  · rwa [heq]
  · exact hdb.steps (.single ⟨hreg, hpath⟩ hstep)

/-- **A transaction under way sees one of the tuples under the same columns at most.** -/
theorem sees_unique (hS : PrefixFree S) (hr : uniqueSystem.ReachableBy (Regular signBit S) s)
    (hrun : (s.db.txns t).running = true) {x y : Nat} (hx : s.Stored columns x)
    (hy : s.Stored columns y)
    (hsx : s.db.Sees t (s.slotOf x)) (hsy : s.db.Sees t (s.slotOf y)) : x = y := by
  obtain ⟨low, h⟩ := uniqueInv_reachable hS hr
  have hcommit := Db.commitInv_reachable (by decide) h.db
  have hchain := Db.chainInv_reachable h.db
  have htuple := Db.tupleInv_reachable h.db
  have hsnap := Db.snapshots_reachable h.db
  by_contra hne
  rcases h.unique columns x y hx.1 hy.1 (hx.hasKey h.leaves) (hy.hasKey h.leaves) hne with
    ⟨u, hins, hrem⟩ | ⟨u, hins, hrem⟩
  · exact hrem.not_sees hcommit hchain htuple hsnap hrun hins hsy hsx
  · exact hrem.not_sees hcommit hchain htuple hsnap hrun hins hsx hsy

/-! ## The call -/

/-- What a call about `tids` knows. -/
def ModifyOk (s : UniqueIndex) (t : TxnId) (tids : List Nat) : ModifyPc → Prop
  | .next rest => ∃ passed, tids = passed ++ rest ∧ ∀ x ∈ passed, ¬ s.db.Sees t (s.slotOf x)
  | .judge x rest undo => ∃ passed, tids = passed ++ x :: rest ∧
      (∀ y ∈ passed, ¬ s.db.Sees t (s.slotOf y)) ∧
      ∃ p, undo = some p ∧ p ∈ s.db.versions (s.slotOf x) ∧
        (s.db.InSnapshot t p.owner → s.db.kind p ≠ some .delete → s.db.Sees t (s.slotOf x))
  | .done result => s.ModifyAnswer t tids result

/-- What the steps of the others leave as it is for `t`. -/
structure Unseen (s s' : UniqueIndex) (t : TxnId) : Prop where
  table : s'.heapTblId = s.heapTblId
  txn : s'.db.txns t = s.db.txns t
  sees : ∀ x, s'.db.Sees t x ↔ s.db.Sees t x
  inSnapshot : ∀ u, s'.db.InSnapshot t u ↔ s.db.InSnapshot t u
  versions : ∀ x, ∀ p ∈ s.db.versions x, p ∈ s'.db.versions x ∧ s'.db.kind p = s.db.kind p

theorem ModifyOk.frame (hu : Unseen s s' t) {pc : ModifyPc} (h : s.ModifyOk t tids pc) :
    s'.ModifyOk t tids pc := by
  have hslot : ∀ x, s'.slotOf x = s.slotOf x := fun x => by rw [slotOf, slotOf, hu.table]
  cases pc with
  | next rest => simpa only [ModifyOk, hslot, hu.sees] using h
  | judge x rest undo =>
      simp only [ModifyOk, hslot, hu.sees, hu.inSnapshot] at h ⊢
      obtain ⟨passed, heq, hpassed, p, hp, hmem, hsees⟩ := h
      obtain ⟨hmem', hkind⟩ := hu.versions _ p hmem
      exact ⟨passed, heq, hpassed, p, hp, hmem', hkind.symm ▸ hsees⟩
  | done result =>
      cases result with
      | ok tid => simpa only [ModifyOk, ModifyAnswer, hslot, hu.sees] using h
      | error message =>
          simp only [ModifyOk, ModifyAnswer, hslot, hu.inSnapshot] at h ⊢
          obtain ⟨heq, x, hx, p, hp, hout⟩ := h
          exact ⟨heq, x, hx, p, (hu.versions _ p hp).1, hout⟩

/-- A step of another transaction. -/
theorem unseen_of_step {a : UniqueAction} (hr : uniqueSystem.ReachableBy (PathRegular S path) s)
    (hrun : (s.db.txns t).running = true) (hs : s.step a = some s') (hne : t ≠ a.txn) :
    Unseen s s' t := by
  obtain ⟨htable, hdb⟩ := db_of_step hs
  rcases hdb with heq | ⟨b, rfl, hstep⟩
  · exact ⟨htable, by rw [heq], by simp [heq], by simp [heq], by simp [heq]⟩
  · have hdb := db_reachable hr
    obtain ⟨hc, hi, ht, -, -⟩ := Db.pathInv_reachable hdb
    have hsnap := Db.snapshots_reachable (hdb.mono fun _ _ h => h.1)
    have hst := Db.stepped_of_step hstep
    exact ⟨htable, hst.txns_of_ne hne, fun x => Db.sees_step hc hi ht hsnap hrun hst hne,
      fun u => Db.inSnapshot_step hsnap hrun hst hne,
      fun x p hp => ⟨hst.mem_versions ht hp, hst.kind_eq hc hi hp⟩⟩

/-- A read of the call. -/
theorem ModifyOk.own (hr : uniqueSystem.ReachableBy (PathRegular S path) s)
    (hrun : (s.db.txns t).running = true)
    (hins : ∀ x ∈ tids, ∃ u, s.db.InsertedBy u (s.slotOf x)) {pc : ModifyPc}
    (h : s.ModifyOk t tids pc) :
    s.ModifyOk t tids (s.modifyStep t pc) := by
  have hdb := db_reachable hr
  obtain ⟨hc, hi, -, -, hpath⟩ := Db.pathInv_reachable hdb
  have hsnap := Db.snapshots_reachable (hdb.mono fun _ _ h => h.1)
  cases pc with
  | next rest =>
      obtain ⟨passed, rfl, hpassed⟩ := h
      cases rest with
      | nil => exact .inr ⟨rfl, by simpa using hpassed⟩
      | cons x rest =>
          obtain ⟨u, hinsx⟩ := hins x (by simp)
          have hne : s.db.versions (s.slotOf x) ≠ [] := by
            obtain ⟨q, hq, -⟩ := hinsx
            exact List.ne_nil_of_mem hq
          obtain ⟨p, hp⟩ := Option.isSome_iff_exists.mp (List.isSome_head?.mpr hne)
          exact ⟨passed, rfl, hpassed, p, hp, List.mem_of_mem_head? hp,
            fun hin hkind => hpath.sees_of_head hc hi hsnap hrun hp hin hkind hinsx⟩
  | judge x rest undo =>
      obtain ⟨passed, rfl, hpassed, p, rfl, hmem, hsees⟩ := h
      obtain ⟨r, hrecord⟩ := Db.exists_record (hi.valid _ p hmem)
      have hconflict : s.db.conflicts t r = s.db.hasConflict (s.db.txns t) (some p) := by
        simp [Db.conflicts, Db.hasConflict, hrecord]
      have hkind : s.db.kind p = some r.type := by simp [Db.kind, hrecord]
      have hiff := Db.hasConflict_eq_false_iff hc hsnap hrun (hi.valid _ p hmem)
      simp only [modifyStep, Option.bind_some, hrecord, hconflict]
      split <;> rename_i hcase
      · refine ⟨rfl, x, by simp, p, hmem, fun hin => ?_⟩
        rw [hiff.mpr hin] at hcase
        exact absurd hcase (by simp)
      · have hin : s.db.InSnapshot t p.owner := hiff.mp (by simpa using hcase)
        split <;> rename_i hdeleted
        · refine .inl ⟨x, by simp, rfl, hsees hin ?_⟩
          rw [hkind]
          simpa [UndoRecord.isDeleted] using hdeleted
        · have htype : s.db.kind p = some .delete := by
            rw [hkind]
            simpa [UndoRecord.isDeleted] using hdeleted
          refine ⟨passed ++ [x], by simp, fun y hy => ?_⟩
          rcases List.mem_append.mp hy with hy | hy
          · exact hpassed y hy
          · obtain rfl := List.mem_singleton.mp hy
            exact fun hseen => hseen.2 p hmem htype hin
  | done result => exact h

/-- What holds while the call runs. -/
structure ModifyInv (S : Key → Prop) (path : Slot → Bool) (t : TxnId) (tids : List Nat)
    (σ : UniqueIndex × ModifyPc) : Prop where
  reachable : uniqueSystem.ReachableBy (PathRegular S path) σ.1
  running : (σ.1.db.txns t).running = true
  inserted : ∀ x ∈ tids, ∃ u, σ.1.db.InsertedBy u (σ.1.slotOf x)
  one : ∀ x ∈ tids, ∀ y ∈ tids, σ.1.db.Sees t (σ.1.slotOf x) → σ.1.db.Sees t (σ.1.slotOf y) → x = y
  pc : σ.1.ModifyOk t tids σ.2

theorem modifyInv_step {σ σ' : UniqueIndex × ModifyPc} {a : Option UniqueAction}
    (h : ModifyInv S path t tids σ)
    (hc : Beside S path t σ a) (hs : (modifySystem t).step σ a = some σ') :
    ModifyInv S path t tids σ' := by
  obtain ⟨s, pc⟩ := σ
  cases a with
  | none =>
      obtain rfl := Option.some.inj hs
      exact ⟨h.reachable, h.running, h.inserted, h.one, h.pc.own h.reachable h.running h.inserted⟩
  | some a =>
      obtain ⟨⟨hreg, -⟩, hne⟩ := hc
      obtain ⟨s', hstep, rfl⟩ := Option.map_eq_some_iff.mp hs
      have hu := unseen_of_step h.reachable h.running hstep hne
      have hslot : ∀ x, s'.slotOf x = s.slotOf x := fun x => by rw [slotOf, slotOf, hu.table]
      refine ⟨h.reachable.steps (.single hreg hstep), ?_, fun x hx => ?_, ?_, h.pc.frame hu⟩
      · rw [hu.txn]
        exact h.running
      · obtain ⟨u, p, hp, howner, hkind⟩ := h.inserted x hx
        rw [hslot]
        obtain ⟨hmem, heq⟩ := hu.versions _ p hp
        exact ⟨u, p, hmem, howner, heq.trans hkind⟩
      · simp only [hslot, hu.sees]
        exact h.one

/-- What `getTidForModify_answer` says, where `Commit` walks over the records. -/
theorem modifyAnswer_of_steps (hS : PrefixFree S)
    (hr : uniqueSystem.ReachableBy (WrapFree (PathRegular S path)) s)
    (hactive : (s.db.txns t).ctl = .active) (hstored : ∀ x ∈ tids, s.Stored columns x)
    {result : Except String TupleId}
    (hcall : (modifySystem t).Steps (Beside S path t) (s, .next tids) (s', .done result)) :
    s'.ModifyAnswer t tids result ∧
      ∀ x ∈ tids, ∀ y ∈ tids, s'.db.Sees t (s'.slotOf x) → s'.db.Sees t (s'.slotOf y) → x = y := by
  have hpath := reachable_of_wrapFree hr
  have hregular := hpath.mono fun _ _ h => h.1
  have hrun : (s.db.txns t).running = true := by simp [Txn.running, hactive]
  obtain ⟨low, h⟩ := uniqueInv_reachable hS hregular
  have hend := hcall.invariant (P := ModifyInv S path t tids) (fun _ _ _ => modifyInv_step)
    ⟨hpath, hrun, fun x hx => h.tids.stored columns x (hstored x hx).1
      ((hstored x hx).hasKey h.leaves),
      fun x hx y hy hsx hsy => sees_unique hS hregular hrun (hstored x hx) (hstored y hy) hsx hsy,
      [], rfl, by simp⟩
  exact ⟨hend.pc, hend.one⟩

/-! ## With the undo buffers of the transactions -/

/-- The step of a transaction that it is. -/
def txnAction : UniqueAction → Option Action
  | .table a => some a
  | .insertUnique .. | .run _ => none

/-- The steps, where the iterator of a transaction in `RestampVersions` stops at these of its
records. -/
def stepThrough (visited : TxnId → Option (List Nat)) (s : UniqueIndex) :
    UniqueAction → Option UniqueIndex
  | .table a =>
      if (s.calls a.txn).isNone && s.fits a then
        (s.db.stepThrough visited a).map fun db => { s with db := db, pending := s.handOut a }
      else none
  | a => s.step a

theorem stepThrough_all {visited : TxnId → Option (List Nat)} {a : UniqueAction}
    (hall : ∀ u, (txnAction a).bind s.db.restamps = some u →
      visited u = some (List.range (s.db.recordCount u))) :
    s.stepThrough visited a = s.step a := by
  cases a with
  | table a =>
      unfold stepThrough
      dsimp only
      rw [Db.stepThrough_all hall]
      rfl
  | insertUnique | run => rfl

theorem recordCount_step {a : UniqueAction} (hs : s.step a = some s') :
    s'.db.recordCount = Action.recordsAfter s.db.recordCount (txnAction a) := by
  cases a with
  | table a =>
      simp only [step, Option.ite_none_right_eq_some] at hs
      obtain ⟨db, hstep, rfl⟩ := Option.map_eq_some_iff.mp hs.2
      exact (Db.stepped_of_step hstep).recordCount
  | insertUnique | run =>
      obtain ⟨-, hdb | ⟨b, hb, -⟩⟩ := db_of_step hs
      · exact congrArg Db.recordCount hdb
      · cases hb

/-- The index and the transactions, with their undo buffers. -/
def uniqueHost : TxnHost UniqueIndex UniqueAction where
  sys := uniqueSystem
  db s := s.db
  action _ := txnAction
  restamps s a := (txnAction a).bind s.db.restamps
  stepThrough := stepThrough
  through_all _ _ _ := stepThrough_all
  step_records _ _ _ := recordCount_step

/-- A call of `GetTidForModify` beside them. -/
def modifyHost (t : TxnId) : TxnHost (UniqueIndex × ModifyPc) (Option UniqueAction) where
  sys := modifySystem t
  db σ := σ.1.db
  action _ a := a.bind txnAction
  restamps σ a := (a.bind txnAction).bind σ.1.db.restamps
  stepThrough visited
    | (s, pc), none => some (s, s.modifyStep t pc)
    | (s, pc), some a => (s.stepThrough visited a).map fun s => (s, pc)
  through_all visited σ a hall := by
    cases a with
    | none => rfl
    | some a => exact congrArg (Option.map _) (stepThrough_all hall)
  step_records σ a σ' hs := by
    cases a with
    | none =>
        obtain rfl := Option.some.inj hs
        rfl
    | some a =>
        obtain ⟨s', hstep, rfl⟩ := Option.map_eq_some_iff.mp hs
        exact recordCount_step hstep

/-- **`GetTidForModify` about the ids that are stored under some columns finds the tuple that the
transaction sees**, where every `Commit` visits all of its records. -/
theorem getTidForModify_answer {memory : UndoMemory} {x : WithUndo UniqueIndex}
    {y : WithUndo (UniqueIndex × ModifyPc)} (hS : PrefixFree S)
    (hr : (uniqueHost.withUndo memory).ReachableBy
      (uniqueHost.CommitsWhole memory (WrapFree (PathRegular S path))) x)
    (hactive : (x.state.db.txns t).ctl = .active)
    (hstored : ∀ tid ∈ tids, x.state.Stored columns tid)
    (hcall : ((modifyHost t).withUndo memory).Steps
      ((modifyHost t).CommitsWhole memory (Beside S path t))
        ⟨(x.state, .next tids), x.calls⟩ y)
    {result : Except String TupleId} (hdone : y.state.2 = .done result) :
    y.state.1.ModifyAnswer t tids result ∧
      ∀ a ∈ tids, ∀ b ∈ tids, y.state.1.db.Sees t (y.state.1.slotOf a) →
        y.state.1.db.Sees t (y.state.1.slotOf b) → a = b := by
  obtain ⟨hreach, hmatches⟩ := TxnHost.reachable_of_commitsWhole hr
  have hcalls : (modifyHost t).Matches (x.state, .next tids) x.calls := hmatches
  obtain ⟨hsteps, -⟩ := TxnHost.steps_of_commitsWhole hcalls hcall
  obtain ⟨⟨s, pc⟩, calls⟩ := y
  obtain rfl : pc = .done result := hdone
  exact modifyAnswer_of_steps hS hreach hactive hstored hsteps

/-- Transaction 1 asks for the tuple that it has put in the place of another one; transaction 2
begins meanwhile. -/
def modifyReplaced : List (Option UniqueAction) :=
  [none, some (.table (.begin 2)), none, none, some (.table (.spin 2)), none]

theorem getTidForModify_answer_replaced : ∃ x y,
    (uniqueHost.withUndo .zeroed).ReachableBy
        (uniqueHost.CommitsWhole .zeroed (WrapFree (PathRegular (FixedWidth 8) fun _ => false))) x ∧
      ((modifyHost 1).withUndo .zeroed).Steps
        ((modifyHost 1).CommitsWhole .zeroed (Beside (FixedWidth 8) (fun _ => false) 1))
        ⟨(x.state, .next [rowId 0, rowId 1]), x.calls⟩ y ∧
      y.state.2 = .done (.ok ⟨1, 1⟩) ∧ y.state.1.ModifyAnswer 1 [rowId 0, rowId 1] (.ok ⟨1, 1⟩) ∧
      ∀ a ∈ [rowId 0, rowId 1], ∀ b ∈ [rowId 0, rowId 1], y.state.1.db.Sees 1 (y.state.1.slotOf a) →
        y.state.1.db.Sees 1 (y.state.1.slotOf b) → a = b := by
  have hrun :
      (uniqueSystem.exec (WrapFree (PathRegular (FixedWidth 8) fun _ => false)) fresh
        replaceRow).map (fun s =>
      decide ((s.db.txns 1).ctl = .active ∧ s.InFirstLeaf (toBE 8 1) 0 ∧
        s.InFirstLeaf (toBE 8 1) 1 ∧
        ((modifySystem 1).exec (Beside (FixedWidth 8) (fun _ => false) 1)
          (s, .next [rowId 0, rowId 1])
          modifyReplaced).map Prod.snd = some (.done (.ok ⟨1, 1⟩)))) = some true := by
    decide +kernel
  obtain ⟨s, hexec, hs⟩ := Option.map_eq_some_iff.mp hrun
  obtain ⟨hactive, h0, h1, hcall⟩ := of_decide_eq_true hs
  obtain ⟨⟨s', pc⟩, hmodify, rfl⟩ := Option.map_eq_some_iff.mp hcall
  have hstored : ∀ x ∈ [rowId 0, rowId 1], s.Stored (toBE 8 1) x := by
    intro x hx
    rcases List.mem_pair.mp hx with rfl | rfl
    · exact h0.stored (by decide)
    · exact h1.stored (by decide)
  obtain ⟨calls, hr, hmatches⟩ := uniqueHost.exists_reachable ⟨fresh, fresh_init, .of_exec _ hexec⟩
  obtain ⟨calls', hsteps, -⟩ :=
    TxnHost.exists_withUndo (H := modifyHost 1) (s := (s, .next [rowId 0, rowId 1]))
    hmatches (.of_exec _ hmodify)
  exact ⟨⟨s, calls⟩, ⟨(s', _), calls'⟩, hr, hsteps, rfl,
    getTidForModify_answer (prefixFree_fixedWidth 8) hr hactive hstored hsteps rfl⟩

end UniqueIndex

end Db7
