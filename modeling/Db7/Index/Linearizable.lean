import Mathlib.Data.Set.Insert
import Db7.Index.Updates
import Db7.Lib.AtomicObject

/-!
# Updates are linearizable

For its clients the index is a set of pairs that `Insert` and `Delete` change at once. What happens
inside a call (descents, splits, separators on their way up, a new root) is not seen: the call takes
effect in its leaf section, and everything after that leaves the pairs as they are.

`updates_linearizable` says so for every run of updates and lookups by any number of threads, as
long as they use different pairs at a time, second descents find their root and no section leaves
its page. The ids that a lookup returns are not those of one moment; `get_regular` says what they
are.
-/

namespace Db7

open Lib Function KeyNormEncoder

/-- What a call does to the pairs. -/
def IndexOp.apply : IndexOp → Set Key → Set Key
  | insert columns tid, pairs => Insert.insert (buildKey columns tid) pairs
  | delete columns tid, pairs => pairs \ {buildKey columns tid}
  | get _, pairs => pairs

/-- What a client sees of a step. -/
def BtreeAction.seen : BtreeAction → Option (Atomic.Event IndexOp Nat)
  | invoke t op => some (.call t op)
  | ret t => some (.ret t)
  | run _ => none

namespace BTreeIndex

/-- A thread as a client: an update has taken effect when its leaf section is over. -/
def client (th : BtreeThread) : Atomic.Client IndexOp :=
  match th.pc, th.op with
  | .idle, _ => .idle
  | .done _, op => .applied op
  | _, .get columns => .called (.get columns)
  | pc, op => if pc.searching then .called op else .applied op

/-- The index as its clients see it. -/
def object (s : BTreeIndex) : Atomic.State (Set Key) IndexOp Nat :=
  ⟨{k | s.tree.HasKey k}, fun t => client (s.threads t)⟩

section Client

variable {th : BtreeThread}

theorem client_idle (h : th.pc = .idle) : client th = .idle := by
  unfold client
  rw [h]

theorem client_done {results : List Nat} (h : th.pc = .done results) :
    client th = .applied th.op := by
  unfold client
  rw [h]

theorem client_update (hne : th.pc ≠ .idle) (hop : ∀ columns, th.op ≠ .get columns) :
    client th = if th.pc.searching then .called th.op else .applied th.op := by
  obtain ⟨op, stack, pc, before⟩ := th
  cases op with
  | get columns => exact absurd rfl (hop columns)
  | _ => cases pc <;> first | exact absurd rfl hne | rfl

theorem client_get {columns : Key} (hne : th.pc ≠ .idle) (hdone : ∀ results, th.pc ≠ .done results)
    (hop : th.op = .get columns) : client th = .called th.op := by
  obtain ⟨op, stack, pc, before⟩ := th
  obtain rfl := hop
  cases pc <;> first | exact absurd rfl hne | exact absurd rfl (hdone _) | rfl

end Client

section Steps

variable {s s' : BTreeIndex} {low low' : Nat → Key} {S : Key → Prop} {t : Nat} {op : IndexOp}

/-- The index that starts empty. -/
abbrev pairSet : TSys (Atomic.State (Set Key) IndexOp Nat) (Atomic.Act IndexOp Nat) :=
  Atomic.object IndexOp.apply ∅

theorem object_eq (hothers : ∀ u, u ≠ t → s'.threads u = s.threads u) {pairs : Set Key}
    {c : Atomic.Client IndexOp}
    (hpairs : ∀ k, s'.tree.HasKey k ↔ k ∈ pairs) (hc : client (s'.threads t) = c) :
    s'.object = ⟨pairs, update s.object.clients t c⟩ := by
  unfold object
  congr 1
  · exact Set.ext hpairs
  · funext u
    by_cases hu : u = t
    · rw [hu, update_self, hc]
    · rw [update_of_ne hu, hothers u hu]

/-- The effect of a step of a thread that is in an update. -/
theorem trace_update (hne : (s.threads t).pc ≠ .idle) (hne' : (s'.threads t).pc ≠ .idle)
    (he : Effect s s' low low' S t) (hop : ∀ columns, (s.threads t).op ≠ .get columns) :
    ∃ bs, bs.filterMap Atomic.Act.seen = [] ∧ pairSet.Trace TSys.Always s.object bs s'.object := by
  have hclient : s.object.clients t =
      if (s.threads t).pc.searching then .called (s.threads t).op else .applied (s.threads t).op :=
    client_update hne hop
  have hclient' : client (s'.threads t) =
      if (s'.threads t).pc.searching then .called (s.threads t).op
        else .applied (s.threads t).op := by
    rw [client_update hne' (by rw [he.op]; exact hop), he.op]
  rcases he.keys with ⟨hsame | ⟨_, hget⟩, hkeys⟩ | ⟨hsearch, hplaced, heffect⟩
  · -- nothing is seen
    have heq : s'.object = s.object := by
      rw [object_eq he.others hkeys hclient', hsame, ← hclient, update_eq_self]
      rfl
    exact ⟨[], rfl, heq ▸ .nil⟩
  · exact absurd hget (hop _)
  · -- the update takes effect
    rw [hsearch, if_pos rfl] at hclient
    rw [hplaced, if_neg (by simp)] at hclient'
    refine ⟨[.apply t], rfl,
      Atomic.trace_apply hclient (object_eq he.others (fun k => ?_) hclient')⟩
    cases hopt : (s.threads t).op with
    | insert columns tid =>
        rw [hopt] at heffect
        exact (heffect k).trans Or.comm
    | delete columns tid =>
        rw [hopt] at heffect
        exact heffect k
    | get columns => exact absurd hopt (hop columns)

/-- The pairs stay as they are in a lookup. -/
theorem trace_lookup (hne : (s.threads t).pc ≠ .idle)
    (hdone : ∀ results, (s.threads t).pc ≠ .done results)
    (hne' : (s'.threads t).pc ≠ .idle) (he : Effect s s' low low' S t) {columns : Key}
    (hop : (s.threads t).op = .get columns) :
    ∃ bs, bs.filterMap Atomic.Act.seen = [] ∧ pairSet.Trace TSys.Always s.object bs s'.object := by
  have hclient : s.object.clients t = .called (s.threads t).op := client_get hne hdone hop
  have hkeys : ∀ k, s'.tree.HasKey k ↔ s.tree.HasKey k := by
    rcases he.keys with ⟨-, hkeys⟩ | ⟨-, -, heffect⟩
    · exact hkeys
    · rw [hop] at heffect
      exact heffect.elim
  by_cases hdone' : ∃ results, (s'.threads t).pc = .done results
  · obtain ⟨results, hdone'⟩ := hdone'
    have hclient' : client (s'.threads t) = .applied (s.threads t).op := by
      rw [client_done hdone', he.op]
    refine ⟨[.apply t], rfl,
      Atomic.trace_apply hclient (object_eq he.others (fun k => ?_) hclient')⟩
    rw [hop]
    exact hkeys k
  · have hclient' : client (s'.threads t) = .called (s.threads t).op := by
      rw [client_get hne' (fun results hr => hdone' ⟨results, hr⟩) (he.op.trans hop), he.op]
    have heq : s'.object = s.object := by
      rw [object_eq he.others hkeys hclient', ← hclient, update_eq_self]
      rfl
    exact ⟨[], rfl, heq ▸ .nil⟩

theorem trace_step (hsound : Sound s low S) (hacc : Accounts s S) {a : BtreeAction}
    (hc : UpdatesApart S s a) (hs : s.step a = some s') :
    ∃ bs, bs.filterMap Atomic.Act.seen = a.seen.toList ∧
      pairSet.Trace TSys.Always s.object bs s'.object := by
  cases a with
  | invoke t op =>
      have hi := invoked_of_step hs
      have hcalled : client (s'.threads t) = .called op := by
        rw [hi.thread]
        cases op <;> rfl
      exact ⟨[.call t op], rfl, Atomic.trace_call (client_idle hi.idle)
        (object_eq hi.others (fun k => by rw [hi.tree]; rfl) hcalled)⟩
  | run t =>
      obtain ⟨low', he, -⟩ := hsound.run (hacc.callOk t) hc hs
      have hrun := runThread_of_step hs
      have hne := running_of_step hs
      have hdone : ∀ results, (s.threads t).pc ≠ .done results := by
        intro results hdone
        simp [hdone, runThread] at hrun
      by_cases hget : ∃ columns, (s.threads t).op = .get columns
      · obtain ⟨columns, hop⟩ := hget
        exact trace_lookup hne hdone (run_not_idle hrun) he hop
      · exact trace_update hne (run_not_idle hrun) he fun columns hop => hget ⟨columns, hop⟩
  | ret t =>
      have hr := returned_of_step hs
      obtain ⟨results, hdone⟩ := hr.done
      have hidle : client (s'.threads t) = .idle := client_idle (by rw [hr.thread])
      exact ⟨[.ret t], rfl, Atomic.trace_ret (client_done hdone)
        (object_eq hr.others (fun k => by rw [hr.tree]; rfl) hidle)⟩

end Steps

theorem object_init : init.object = ⟨∅, fun _ => .idle⟩ := by
  unfold object
  congr 1
  refine Set.eq_empty_of_forall_notMem fun k hk => ?_
  exact absurd ((ledger_init (S := fun _ => True)).begun k hk) (by simp [init])

/-- **Updates are linearizable.** A run of updates and lookups by any number of threads in which no
section leaves its page looks like a run of a set of pairs that each call changes at one moment, and
ends with the pairs of that set. -/
theorem updates_linearizable {S : Key → Prop} {as : List BtreeAction} {s : BTreeIndex}
    (h : btreeSystem.Trace (OnPages (UpdatesApart S)) init as s) :
    ∃ bs, bs.filterMap Atomic.Act.seen = as.filterMap BtreeAction.seen ∧
      pairSet.Trace TSys.Always ⟨∅, fun _ => .idle⟩ bs s.object := by
  rw [← object_init]
  have hstep : ∀ s a s', btreeSystem.ReachableBy (UpdatesApart S) s → UpdatesApart S s a →
      s.step a = some s' →
      ∃ bs, bs.filterMap Atomic.Act.seen = a.seen.toList ∧
        pairSet.Trace TSys.Always s.object bs s'.object := by
    intro s a s' hr hc hs
    obtain ⟨low, hsound, hacc⟩ := sound_updates hr
    exact trace_step hsound hacc hc hs
  exact (h.mono fun _ _ hc => hc.1).simulates (fun s a s' hr hc hs => hr.steps (.single hc hs))
    hstep
    ⟨init, rfl, .refl⟩

/-- Thread 1 deletes a pair while thread 0 inserts another one. -/
def deleteBesideInsert : List BtreeAction :=
  insertCall 0 (toBE 8 1) 7 3 ++ [.invoke 0 (.insert (toBE 8 2) 9), .run 0,
    .invoke 1 (.delete (toBE 8 1) 7),
    .run 1, .run 0, .run 1, .run 1, .run 0, .ret 1, .ret 0]

theorem updates_linearizable_deleteBesideInsert : ∃ s bs,
    btreeSystem.exec (OnPages (UpdatesApart (FixedWidth 8))) init deleteBesideInsert = some s ∧
      bs.filterMap Atomic.Act.seen = deleteBesideInsert.filterMap BtreeAction.seen ∧
      pairSet.Trace TSys.Always ⟨∅, fun _ => .idle⟩ bs s.object ∧
        s.begun = [buildKey (toBE 8 2) 9] := by
  have hrun :
      (btreeSystem.exec (OnPages (UpdatesApart (FixedWidth 8))) init deleteBesideInsert).map begun =
      some [buildKey (toBE 8 2) 9] := by
    decide +kernel
  obtain ⟨s, hexec, hbegun⟩ := Option.map_eq_some_iff.mp hrun
  obtain ⟨bs, hseen, htrace⟩ := updates_linearizable (TSys.Trace.of_exec _ hexec)
  exact ⟨s, bs, hexec, hseen, htrace, hbegun⟩

end BTreeIndex

end Db7
