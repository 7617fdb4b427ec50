import Db7.Storage.UndoIteration
import Db7.Txn.Steps
import Db7.Lib.Lists

/-!
# The records that `Commit` visits

`RestampVersions` does not walk over the records of a transaction but over the memory of its undo
buffer, and what that holds behind an insert or a delete the transaction has not written. So the
records that a `Commit` stamps depend on the segments that the pool has handed out. `WithUndo`
keeps, beside the state of a system of transactions, the calls that have made the records of each.

* **Commit through the iterator** (`Db.stepThrough`): the restamps of a transaction, one record per
  stop;
* **all of them** (`UndoMemory.visited_iff`): the stops are the records that were made exactly when
  the segments came empty and zero where the iterator looks for a delta;
* **runs** (`TxnHost.steps_of_commitsWhole`): where every `Commit` visits all of its records, a run
  is one of the system in which it walks over the records.
-/

namespace Db7

open Lib Function

namespace UndoSegments

variable {b : UndoSegments} {it : UndoIterator} {ps : List UndoIterator}

/-- A path is visited in as many rounds as it has records, and one to find the end. -/
theorem visits_path (h : b.Path it ps) : b.visits (ps.length + 1) it = some ps := by
  induction ps generalizing it with
  | nil => simp [visits, show it = b.past from h]
  | cons p ps ih =>
      obtain ⟨rfl, hlt, hrest⟩ := h
      simp [visits, ne_past hlt, hlt, ih hrest]

end UndoSegments

/-! ## The buffer of a transaction -/

/-- The segments that a transaction gets from the pool, with what they hold then, and the chunk of
an update in bytes. -/
structure UndoMemory where
  pool : TxnId → Nat → FixedBumpArena
  image : DataChunk → ChunkImage

namespace UndoMemory

variable (memory : UndoMemory) (t : TxnId) (finish : Nat) (calls : List UndoCall)

/-- The call of `UndoBuffer` that a write makes. -/
def callOf (slot : Slot) : WriteOp → UndoCall
  | .update chunk => .update slot (memory.image chunk)
  | .delete | .deleteRaw => .delete slot

/-- The undo buffer after these calls, and where their records are. What is written to a record
later (its link, its type, the values of its delta), the iterator does not read. -/
def buffer : Except ArenaFault (UndoSegments × List UndoIterator) :=
  (UndoSegments.init (memory.pool t) calls.length).run finish calls

/-- The records at which a loop over the buffer stops, by their place in the list of all; `none`
when it stops where no record is, or does not end. -/
def visited : Option (List Nat) :=
  match memory.buffer t finish calls with
  | .ok (b, ps) => (b.visits (ps.length + 1) UndoSegments.first).bind fun its =>
      its.mapM fun it => ps.idxOf? it
  | .error _ => none

/-- The segments came empty, and zero where the iterator looks for the delta of an insert or a
delete. -/
def Clean : Prop :=
  ∃ b ps, memory.buffer t finish calls = .ok (b, ps) ∧
    UndoSegments.CameEmpty (memory.pool t) (.init (memory.pool t) calls.length) b ∧
    UndoSegments.ZeroBehind (memory.pool t) (calls.zip ps)

/-! ## All records -/

section Visits

variable {memory : UndoMemory} {t : TxnId} {finish : Nat} {calls : List UndoCall}

theorem length_of_run {b b' : UndoSegments} {ps : List UndoIterator}
    (h : b.run finish calls = .ok (b', ps)) :
    ps.length = calls.length := by
  induction calls generalizing b ps with
  | nil =>
      obtain ⟨-, rfl⟩ := UndoSegments.run_nil h
      rfl
  | cons c calls ih =>
      obtain ⟨b₁, p, ps', -, hrun, rfl⟩ := UndoSegments.run_cons h
      rw [List.length_cons, List.length_cons, ih hrun]

/-- The iterator stops at every record, once and in order, exactly when the memory is clean. -/
theorem visited_iff : memory.visited t finish calls = some (List.range calls.length) ↔
    memory.Clean t finish calls := by
  unfold visited Clean
  cases hrun : memory.buffer t finish calls with
  | error e => simp
  | ok r =>
      obtain ⟨b, ps⟩ := r
      have hlen := length_of_run hrun
      have hfresh : UndoSegments.Fresh (memory.pool t) (.init (memory.pool t) calls.length) :=
        ⟨fun _ _ => rfl, fun k a hk _ => absurd hk (by simp [UndoSegments.init])⟩
      have hpath := UndoSegments.path_iff hfresh hrun
      have hnodup := UndoSegments.nodup_of_apart (UndoSegments.created_apart hrun).1
      have hfirst : (UndoSegments.init (memory.pool t) calls.length).cursor b =
          UndoSegments.first := rfl
      rw [hfirst] at hpath
      dsimp only
      rw [Option.bind_eq_some_iff, ← hlen]
      constructor
      · rintro ⟨its, hvisits, hits⟩
        obtain rfl := (mapM_idxOf?_iff hnodup).mp hits
        exact ⟨b, its, rfl, hpath.mp (UndoSegments.visits_iff.mp ⟨_, hvisits⟩)⟩
      · rintro ⟨b', ps', hok, hclean⟩
        obtain ⟨rfl, rfl⟩ := Prod.mk.inj (Except.ok.inj hok)
        exact ⟨ps, UndoSegments.visits_path (hpath.mpr hclean), (mapM_idxOf?_iff hnodup).mpr rfl⟩

/-- Segments that come empty and zero. -/
def zeroed : UndoMemory := ⟨fun _ => UndoSegments.filledPool 0, fun _ => UndoSegments.bigintChunk⟩

theorem clean_zeroed : zeroed.Clean t finish calls := by
  obtain ⟨b, ps, hrun⟩ :=
    UndoSegments.run_returns (b := .init (zeroed.pool t) calls.length) finish calls
    (by simp [UndoSegments.init]) fun _ _ => rfl
  exact ⟨b, ps, hrun, fun _ _ _ => rfl, fun _ _ _ => rfl⟩

end Visits

end UndoMemory

/-! ## Commit through the iterator -/

namespace Db

/-- `RestampVersions` of one record; `i` have been stamped before it. -/
def restampAt (s : Db) (t : TxnId) (commit i k : Nat) : Db :=
  s.setTxn t { s.txns t with
    undo := (s.txns t).undo.modify k fun r => r.setTimestamp commit
    ctl := .restamping commit (i + 1) }

/-- The transaction whose records `RestampVersions` visits in the step. -/
def restamps (s : Db) : Action → Option TxnId
  | .run t =>
      match (s.txns t).ctl with
      | .restamping _ _ => some t
      | _ => none
  | _ => none

/-- The steps of `Db.step`, where the iterator of a transaction in `RestampVersions` stops at these
of its records. -/
def stepThrough (visited : TxnId → Option (List Nat)) (s : Db) (a : Action) : Option Db :=
  match a with
  | .run t =>
      match (s.txns t).ctl with
      | .restamping commit i =>
          (visited t).map fun stops =>
            match stops[i]? with
            | some k => s.restampAt t commit i k
            | none => s.unlockLatch t commit
      | _ => s.step a
  | _ => s.step a

/-- Where it stops at all of them, that is `Db.step`. -/
theorem stepThrough_all {visited : TxnId → Option (List Nat)} {s : Db} {a : Action}
    (h : ∀ t, s.restamps a = some t → visited t = some (List.range (s.txns t).undo.length)) :
    s.stepThrough visited a = s.step a := by
  cases a with
  | run t =>
      unfold stepThrough
      dsimp only
      cases hctl : (s.txns t).ctl with
      | restamping commit i =>
          have hall := h t (by simp [restamps, hctl])
          simp only [hall, Option.map_some, step, runTxn, hctl]
          by_cases hi : i < (s.txns t).undo.length
          · rw [if_pos hi, List.getElem?_range hi]
            rfl
          · rw [if_neg hi, List.getElem?_eq_none (by simpa using hi)]
      | _ => rfl
  | _ => rfl

end Db

/-! ## Systems of transactions -/

/-- The calls that have made the records of each transaction, after this step. -/
def UndoMemory.callsAfter (memory : UndoMemory) (s : Db) (calls : TxnId → List UndoCall) :
    Option Action → TxnId → List UndoCall
  | some (.begin t) => update calls t []
  | some (.insert t tbl pid _) => update calls t (calls t ++ [.insert ⟨tbl, pid, s.count tbl pid⟩])
  | some (.write t op slot) => update calls t (calls t ++ [memory.callOf slot op])
  | some (.spin _) | some (.commit _) | some (.run _) | none => calls

/-- How many records each transaction has after this step. -/
def Action.recordsAfter (records : TxnId → Nat) : Option Action → TxnId → Nat
  | some (.begin t) => update records t 0
  | some (.insert t _ _ _) | some (.write t _ _) => update records t (records t + 1)
  | some (.spin _) | some (.commit _) | some (.run _) | none => records

/-- The number of records of each transaction. -/
def Db.recordCount (s : Db) (t : TxnId) : Nat := (s.txns t).undo.length

/-- A system with a database in its state, whose steps are steps of transactions or none of them. -/
structure TxnHost (σ α : Type) where
  sys : TSys σ α
  db : σ → Db
  /-- The step of a transaction that it is. -/
  action : σ → α → Option Action
  /-- The transaction whose records `RestampVersions` visits in the step. -/
  restamps : σ → α → Option TxnId
  /-- The step, where the iterator of a transaction stops at these of its records. -/
  stepThrough : (TxnId → Option (List Nat)) → σ → α → Option σ
  through_all : ∀ visited s a,
    (∀ t, restamps s a = some t → visited t = some (List.range ((db s).recordCount t))) →
    stepThrough visited s a = sys.step s a
  step_records : ∀ s a s', sys.step s a = some s' →
    (db s').recordCount = Action.recordsAfter (db s).recordCount (action s a)

/-- A state, with the calls that have made the records of each transaction. -/
structure WithUndo (σ : Type) where
  state : σ
  calls : TxnId → List UndoCall

namespace TxnHost

variable {σ α : Type} (H : TxnHost σ α) (memory : UndoMemory)

/-- At which of its records the iterator of a transaction stops. -/
def visited (x : WithUndo σ) (t : TxnId) : Option (List Nat) :=
  memory.visited t ((H.db x.state).txns t).finish (x.calls t)

/-- There is one call for each record. -/
def Matches (s : σ) (calls : TxnId → List UndoCall) : Prop :=
  ∀ t, (calls t).length = (H.db s).recordCount t

/-- The system whose `Commit` goes through the iterator. -/
def withUndo : TSys (WithUndo σ) α where
  init x := H.sys.init x.state ∧ H.Matches x.state x.calls
  step x a := (H.stepThrough (H.visited memory x) x.state a).map fun s' =>
    ⟨s', memory.callsAfter (H.db x.state) x.calls (H.action x.state a)⟩

/-- The condition `C`; and a transaction in `RestampVersions` visits all of its records: the
segments of its undo buffer came empty, and zero where the iterator looks for the delta of an insert
or a delete. -/
def CommitsWhole (C : σ → α → Prop) (x : WithUndo σ) (a : α) : Prop :=
  C x.state a ∧ ∀ t, H.restamps x.state a = some t →
    memory.Clean t ((H.db x.state).txns t).finish (x.calls t)

variable {H memory} {C : σ → α → Prop} {s s' : σ} {x x' : WithUndo σ} {a : α}
  {calls : TxnId → List UndoCall}

theorem Matches.after (h : H.Matches s calls) (hs : H.sys.step s a = some s') :
    H.Matches s' (memory.callsAfter (H.db s) calls (H.action s a)) := by
  -- the context of one transaction gets one more of both, or none
  have hone : ∀ (t u : TxnId) (new : List UndoCall) (n : Nat), new.length = n →
      (update calls t new u).length = update (H.db s).recordCount t n u := by
    intro t u new n hnew
    by_cases htu : u = t
    · subst htu
      simpa using hnew
    · simpa [htu] using h u
  intro u
  rw [H.step_records s a s' hs]
  cases haction : H.action s a with
  | none => exact h u
  | some b =>
      cases b with
      | begin t => exact hone t u _ _ rfl
      | insert t tbl pid chunk => exact hone t u _ _ (by rw [List.length_append, h t]; rfl)
      | write t op slot => exact hone t u _ _ (by rw [List.length_append, h t]; rfl)
      | spin | commit | run => exact h u

/-- Where every `Commit` visits all of its records, a step is one of the system without a buffer. -/
theorem step_of_commitsWhole (h : H.Matches x.state x.calls) (hc : H.CommitsWhole memory C x a)
    (hs : (H.withUndo memory).step x a = some x') :
    H.sys.step x.state a = some x'.state ∧ H.Matches x'.state x'.calls := by
  obtain ⟨s', hthrough, rfl⟩ := Option.map_eq_some_iff.mp hs
  have hall : ∀ t, H.restamps x.state a = some t →
      H.visited memory x t = some (List.range ((H.db x.state).recordCount t)) :=
    fun t ht => h t ▸ UndoMemory.visited_iff.mpr (hc.2 t ht)
  rw [H.through_all _ _ _ hall] at hthrough
  exact ⟨hthrough, h.after hthrough⟩

/-- **A run whose `Commit`s visit all of their records** is one of the system without a buffer. -/
theorem steps_of_commitsWhole (hx : H.Matches x.state x.calls)
    (hrun : (H.withUndo memory).Steps (H.CommitsWhole memory C) x x') :
    H.sys.Steps C x.state x'.state ∧ H.Matches x'.state x'.calls :=
  hrun.invariant (P := fun x' => H.sys.Steps C x.state x'.state ∧ H.Matches x'.state x'.calls)
    (fun _ _ _ ⟨hsteps, h⟩ hc hs =>
      have hstep := step_of_commitsWhole h hc hs
      ⟨hsteps.tail hc.1 hstep.1, hstep.2⟩)
    ⟨.refl, hx⟩

theorem reachable_of_commitsWhole
    (hr : (H.withUndo memory).ReachableBy (H.CommitsWhole memory C) x) :
    H.sys.ReachableBy C x.state ∧ H.Matches x.state x.calls := by
  obtain ⟨x₀, ⟨hinit, hcalls⟩, hrun⟩ := hr
  obtain ⟨hsteps, h⟩ := steps_of_commitsWhole hcalls hrun
  exact ⟨⟨x₀.state, hinit, hsteps⟩, h⟩

/-- In segments that come empty and zero, every run is one of those. -/
theorem exists_withUndo (hcalls : H.Matches s calls) (hrun : H.sys.Steps C s s') :
    ∃ calls', (H.withUndo .zeroed).Steps (H.CommitsWhole .zeroed C) ⟨s, calls⟩ ⟨s', calls'⟩ ∧
      H.Matches s' calls' := by
  induction hrun with
  | refl => exact ⟨calls, .refl, hcalls⟩
  | @tail r u a _ hc hs ih =>
      obtain ⟨calls', hsteps, h⟩ := ih
      have hstep : (H.withUndo .zeroed).step ⟨r, calls'⟩ a =
          some ⟨u, UndoMemory.zeroed.callsAfter (H.db r) calls' (H.action r a)⟩ := by
        refine Option.map_eq_some_iff.mpr ⟨u, ?_, rfl⟩
        rw [H.through_all _ _ _ fun t _ => h t ▸ UndoMemory.visited_iff.mpr UndoMemory.clean_zeroed]
        exact hs
      exact ⟨_, hsteps.tail ⟨hc, fun _ _ => UndoMemory.clean_zeroed⟩ hstep, h.after hs⟩

theorem exists_reachable (hr : H.sys.ReachableBy C s) :
    ∃ calls, (H.withUndo .zeroed).ReachableBy (H.CommitsWhole .zeroed C) ⟨s, calls⟩ ∧
      H.Matches s calls := by
  obtain ⟨s₀, hinit, hrun⟩ := hr
  have hstart :
      H.Matches s₀ fun t => List.replicate ((H.db s₀).recordCount t) (.insert ⟨0, 0, 0⟩) :=
    fun _ => List.length_replicate
  obtain ⟨calls, hsteps, h⟩ := exists_withUndo hstart hrun
  exact ⟨calls, ⟨⟨s₀, _⟩, ⟨hinit, hstart⟩, hsteps⟩, h⟩

end TxnHost

/-! ## Transactions step by step -/

theorem Db.recordCount_setTxn (s : Db) (t : TxnId) (x : Txn) :
    (s.setTxn t x).recordCount = update s.recordCount t x.undo.length := by
  funext u
  by_cases hu : u = t
  · subst hu
    simp [recordCount]
  · simp [recordCount, hu]

/-- A transaction that keeps the number of its records. -/
theorem Db.recordCount_eq {s s' : Db} {t : TxnId} {x : Txn} (htxns : s'.txns = update s.txns t x)
    (hlen : x.undo.length = (s.txns t).undo.length) : s'.recordCount = s.recordCount := by
  funext u
  unfold recordCount
  rw [htxns]
  by_cases hu : u = t
  · subst hu
    simpa using hlen
  · rw [update_of_ne hu]

theorem Db.Stepped.recordCount {s s' : Db} {a : Action} (h : Stepped s a s') :
    s'.recordCount = Action.recordsAfter s.recordCount (some a) := by
  cases h with
  | begin _ => exact recordCount_setTxn ..
  | insert _ _ =>
      refine (recordCount_setTxn ..).trans ?_
      rw [List.length_append]
      rfl
  | start _ _ _ =>
      refine (recordCount_setTxn ..).trans ?_
      rw [List.length_append]
      rfl
  | spin _ =>
      unfold tryLatch
      split
      · rfl
      · exact recordCount_eq rfl rfl
  | restamp => exact recordCount_eq rfl (List.length_modify ..)
  | check =>
      unfold checkHead
      dsimp only
      split
      · exact recordCount_eq rfl (List.length_modify ..)
      · exact recordCount_eq rfl rfl
  | apply => exact recordCount_eq rfl (List.length_modify ..)
  | link =>
      unfold Db.link
      split <;> exact recordCount_eq rfl rfl
  | _ => exact recordCount_eq rfl rfl

/-- The transactions themselves. -/
def txnHost : TxnHost Db Action where
  sys := txnSystem
  db s := s
  action _ a := some a
  restamps := Db.restamps
  stepThrough := Db.stepThrough
  through_all _ _ _ h := Db.stepThrough_all h
  step_records s a s' hs := (Db.stepped_of_step hs).recordCount

end Db7
