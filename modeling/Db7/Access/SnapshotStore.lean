import Db7.Access.SnapshotRead
import Db7.Lib.SnapshotIsolation

/-!
# The tables are a snapshot-isolation store

The columns of the tuples are the keys of the store, and the tuples are its objects. Its
committed state and the snapshots of the transactions are what their calls leave there.

* **steps** (`store_begin`, `store_commit`, `Logged.store_step`): a call of a transaction is a
  step of the store, or changes nothing there;
* **runs** (`store_reached`): so every state of a run is one of the store.

Whether a tuple is deleted is not part of the store: the answer to that is not the
snapshot's (`selectIntoChunk_status_iff`).
-/

namespace Db7

open Lib Function

/-- The value that a call gives a column. -/
def Change.assigned (schema : Schema) (col : ColOid) (c : Change) : Option Value :=
  (c.update col).or (c.insert schema col)

namespace History

/-- A column of a tuple. -/
abbrev Cell := Slot × ColOid

/-- The newest value of a column among the calls of some transactions. -/
def assigned (h : History) (who : TxnId → Bool) (k : Cell) : Option Value :=
  (h.eventsOf k.1).findSome? fun e =>
    if who e.ptr.owner then e.change.assigned (h.db.schema k.1.tbl) k.2 else none

/-- What a column of a tuple that was there before the run held then. -/
def storedValue (h : History) (k : Cell) : Option Value :=
  if k.1.idx < h.initial.count k.1.tbl k.1.pid then
    some (h.initial.rows k.1 ((h.db.schema k.1.tbl).position k.2))
  else none

def committed (h : History) (u : TxnId) : Bool := (h.db.txns u).commitTime.isSome

/-- A transaction under way, as the store sees it. -/
def view (h : History) (t : TxnId) : Snapshot.View Cell Value Slot where
  snapshot k := (h.assigned (h.committedBefore t) k).or (h.storedValue k)
  writes := h.assigned fun u => u = t
  claimed := {slot | ∃ e ∈ h.eventsOf slot, e.ptr.owner = t}
  stale := {slot | ∃ e ∈ h.eventsOf slot,
    e.ptr.owner ≠ t ∧ h.committed e.ptr.owner = true ∧ h.committedBefore t e.ptr.owner = false}

def store (h : History) : Snapshot.Store TxnId Cell Value Slot where
  committed k := (h.assigned h.committed k).or (h.storedValue k)
  views t := if (h.db.txns t).ctl = .active then some (h.view t) else none

theorem store_views {h : History} {t : TxnId} {v : Snapshot.View Cell Value Slot} :
    h.store.views t = some v ↔ (h.db.txns t).ctl = .active ∧ h.view t = v := by
  simp [store, Option.ite_none_right_eq_some]

theorem store_active {h : History} {t : TxnId} (ht : (h.db.txns t).ctl = .active) :
    h.store.views t = some (h.view t) := if_pos ht

/-! ## Calls that leave the histories of the tuples -/

theorem assigned_congr {h h' : History} {who who' : TxnId → Bool} {k : Cell}
    (hschema : h'.db.schema = h.db.schema) (hof : h'.eventsOf k.1 = h.eventsOf k.1)
    (hwho : ∀ e ∈ h.eventsOf k.1, who' e.ptr.owner = who e.ptr.owner) :
    h'.assigned who' k = h.assigned who k := by
  unfold assigned
  rw [hof, hschema]
  exact findSome?_congr_mem fun e he => by rw [hwho e he]

theorem storedValue_congr {h h' : History} (hschema : h'.db.schema = h.db.schema)
    (hinitial : h'.initial = h.initial) : h'.storedValue = h.storedValue := by
  funext k
  unfold storedValue
  rw [hinitial, hschema]

theorem committedBefore_congr {h h' : History} {t u : TxnId}
    (hstart : (h'.db.txns t).start = (h.db.txns t).start)
    (hcommit : (h'.db.txns u).commitTime = (h.db.txns u).commitTime) :
    h'.committedBefore t u = h.committedBefore t u := by
  unfold committedBefore
  rw [hstart, hcommit]

/-- A transaction is told nothing by a call that leaves the histories and whoever is in them. -/
theorem view_congr {h h' : History} {t : TxnId} (hschema : h'.db.schema = h.db.schema)
    (hinitial : h'.initial = h.initial) (hevents : h'.events = h.events)
    (hstart : (h'.db.txns t).start = (h.db.txns t).start)
    (hcommit : ∀ e ∈ h.events, (h'.db.txns e.ptr.owner).commitTime =
      (h.db.txns e.ptr.owner).commitTime) :
    h'.view t = h.view t := by
  have hof : ∀ slot, h'.eventsOf slot = h.eventsOf slot :=
    fun slot => by simp only [eventsOf, hevents]
  have hbefore : ∀ slot, ∀ e ∈ h.eventsOf slot,
      h'.committedBefore t e.ptr.owner = h.committedBefore t e.ptr.owner := fun slot e he =>
    committedBefore_congr hstart (hcommit e (mem_of_mem_eventsOf he).1)
  refine Snapshot.View.ext ?_ ?_ ?_ ?_
  · funext k
    show (h'.assigned _ k).or _ = (h.assigned _ k).or _
    rw [assigned_congr hschema (hof k.1) (hbefore k.1), storedValue_congr hschema hinitial]
  · funext k
    show h'.assigned (fun u => u = t) k = h.assigned (fun u => u = t) k
    exact assigned_congr hschema (hof k.1) fun _ _ => rfl
  · ext slot
    show (∃ e ∈ h'.eventsOf slot, _) ↔ ∃ e ∈ h.eventsOf slot, _
    rw [hof]
  · ext slot
    show (∃ e ∈ h'.eventsOf slot, _) ↔ ∃ e ∈ h.eventsOf slot, _
    rw [hof]
    refine exists_congr fun e => and_congr_right fun he => ?_
    rw [hbefore slot e he, committed, committed, hcommit e (mem_of_mem_eventsOf he).1]

theorem committed_congr {h h' : History} (hschema : h'.db.schema = h.db.schema)
    (hinitial : h'.initial = h.initial) (hevents : h'.events = h.events)
    (hcommit : ∀ e ∈ h.events, (h'.db.txns e.ptr.owner).commitTime =
      (h.db.txns e.ptr.owner).commitTime) :
    h'.store.committed = h.store.committed := by
  funext k
  have hwho : ∀ e ∈ h.eventsOf k.1, h'.committed e.ptr.owner = h.committed e.ptr.owner :=
    fun e he => by
    unfold committed
    rw [hcommit e (mem_of_mem_eventsOf he).1]
  show (h'.assigned _ k).or _ = (h.assigned _ k).or _
  rw [assigned_congr hschema (by simp only [eventsOf, hevents]) hwho,
    storedValue_congr hschema hinitial]

/-! ## The operations -/

section Step

variable {h h' : History} {t : TxnId}

/-- A transaction that has not begun has not called. -/
theorem ne_owner (hr : tableSystem.ReachableBy (HandsOutBelow signBit) h)
    (ht : (h.db.txns t).ctl = .idle)
    {slot : Slot} {e : Event} (he : e ∈ h.eventsOf slot) : e.ptr.owner ≠ t := by
  rintro rfl
  exact Db.begun_of_valid (commitInv hr) (valid_of_mem hr he) ht

theorem store_begin (hr : tableSystem.ReachableBy (HandsOutBelow signBit) h)
    (ht : (h.db.txns t).ctl = .idle)
    (hdb : h'.db = h.db.beginAlone t) (hevents : h'.events = h.events)
    (hinitial : h'.initial = h.initial) :
    Snapshot.Step Prod.fst h.store (.begin t) h'.store := by
  have hc := commitInv hr
  rw [Db.beginAlone_of_zero (reachable_db hr).2.commitLatch] at hdb
  have hother : ∀ u, u ≠ t → h'.db.txns u = h.db.txns u := fun u hu => by simp [hdb, hu]
  have hself : h'.db.txns t = ⟨.active, h.db.time, finishTimeOf h.db.time, [], []⟩ := by simp [hdb]
  have hschema : h'.db.schema = h.db.schema := by rw [hdb]; rfl
  have hof : ∀ slot, h'.eventsOf slot = h.eventsOf slot :=
    fun slot => by simp only [eventsOf, hevents]
  have howner : ∀ slot, ∀ e ∈ h.eventsOf slot, e.ptr.owner ≠ t := fun slot e he => ne_owner hr ht he
  have hcommit : ∀ e ∈ h.events,
      (h'.db.txns e.ptr.owner).commitTime = (h.db.txns e.ptr.owner).commitTime := fun e he =>
    congrArg Txn.commitTime (hother _ (howner e.slot e (by simp [eventsOf, he])))
  -- whoever has committed has done so before the new start
  have hbefore : ∀ slot, ∀ e ∈ h.eventsOf slot, h'.committedBefore t e.ptr.owner =
      h.committed e.ptr.owner := by
    intro slot e he
    unfold committedBefore committed
    rw [hother _ (howner slot e he), hself]
    cases hct : (h.db.txns e.ptr.owner).commitTime with
    | none => rfl
    | some c => simpa using Nat.le_of_lt (hc.below (e.ptr.owner, true) c hct)
  have hnew : h'.view t = .start h.store.committed := by
    refine Snapshot.View.ext ?_ ?_ ?_ ?_
    · funext k
      show (h'.assigned _ k).or _ = (h.assigned _ k).or _
      rw [assigned_congr hschema (hof k.1) (hbefore k.1), storedValue_congr hschema hinitial]
    · funext k
      refine List.findSome?_eq_none_iff.mpr fun e he => if_neg ?_
      simpa using howner k.1 e (hof k.1 ▸ he)
    · refine Set.eq_empty_of_forall_notMem fun slot hslot => ?_
      obtain ⟨e, he, heq⟩ := hslot
      exact howner slot e (hof slot ▸ he) heq
    · refine Set.eq_empty_of_forall_notMem fun slot hslot => ?_
      obtain ⟨e, he, -, hcom, hlate⟩ := hslot
      have he := hof slot ▸ he
      rw [hbefore slot e he, committed, ← hcommit e (mem_of_mem_eventsOf he).1] at hlate
      exact absurd (hlate.symm.trans hcom) (by simp)
  have hviews : h'.store.views = update h.store.views t (some (.start h.store.committed)) := by
    funext u
    by_cases hu : u = t
    · subst hu
      rw [update_self, ← hnew]
      exact if_pos (by rw [hself])
    · rw [update_of_ne hu]
      show (if (h'.db.txns u).ctl = .active then some (h'.view u) else none) = _
      rw [hother u hu, view_congr hschema hinitial hevents (by rw [hother u hu]) hcommit]
      rfl
  have hstore : h'.store = { h.store with
      views := update h.store.views t (some (.start h.store.committed)) } :=
    Snapshot.Store.ext (committed_congr hschema hinitial hevents hcommit) hviews
  rw [hstore]
  exact .begin (if_neg (by simp [ht]))

/-- Nobody has a view of what `t` does before it commits. -/
theorem store_commit (hr : tableSystem.ReachableBy (HandsOutBelow signBit) h)
    (ht : (h.db.txns t).ctl = .active)
    (hdb : h'.db = h.db.commitAlone t) (hevents : h'.events = h.events)
    (hinitial : h'.initial = h.initial) :
    Snapshot.Step Prod.fst h.store (.commit t) h'.store := by
  have hc := commitInv hr
  have hother : ∀ u, u ≠ t → h'.db.txns u = h.db.txns u :=
    fun u hu => by simp [hdb, Db.commitAlone, hu]
  have hctl : (h'.db.txns t).ctl = .committed h.db.time := by
    simp [hdb, Db.commitAlone, checkOutTimestamp]
  have hself : (h'.db.txns t).commitTime = some h.db.time := by unfold Txn.commitTime; rw [hctl]
  have hactive : (h.db.txns t).commitTime = none := by unfold Txn.commitTime; rw [ht]
  have hschema : h'.db.schema = h.db.schema := by rw [hdb]; rfl
  have hof : ∀ slot, h'.eventsOf slot = h.eventsOf slot :=
    fun slot => by simp only [eventsOf, hevents]
  have hcommitted : ∀ u, h'.committed u = (decide (u = t) || h.committed u) := by
    intro u
    by_cases hu : u = t
    · subst hu
      simp [committed, hself]
    · simp [committed, hother u hu, hu]
  have habove : ∀ slot, (h.eventsOf slot).Pairwise fun a b =>
      decide (b.ptr.owner = t) = true → decide (a.ptr.owner = t) = true := fun slot =>
    (pairwise_above hr slot).imp fun ha hb => by
      simpa using own_of_above hr ht ha (by simpa using hb)
  have hstore : h'.store.committed = fun k => ((h.view t).writes k).or (h.store.committed k) := by
    funext k
    show (h'.assigned h'.committed k).or (h'.storedValue k) =
      (h.assigned (fun u => u = t) k).or ((h.assigned h.committed k).or (h.storedValue k))
    rw [storedValue_congr hschema hinitial, funext hcommitted,
      assigned_congr hschema (hof k.1) fun _ _ => rfl,
      ← Option.or_assoc]
    congr 1
    exact (findSome?_own _ (habove k.1)).trans Option.orElse_eq_or
  have hbefore : ∀ u, u ≠ t → (h.db.txns u).ctl = .active → ∀ w,
      h'.committedBefore u w = h.committedBefore u w := by
    intro u hu hactiveU w
    by_cases hw : w = t
    · subst hw
      have hlt : (h.db.txns u).start < h.db.time :=
        hc.below (u, false) _ (by simp [Db.handedOut, hactiveU])
      simp [committedBefore, hself, hactive, hother u hu, hlt]
    · simp [committedBefore, hother u hu, hother w hw]
  have hviews : h'.store.views =
      fun u => if u = t then none else (h.store.views u).map fun w =>
        w.lose (h.view t).claimed := by
    funext u
    by_cases hu : u = t
    · subst hu
      simp [store, hctl]
    · by_cases hactiveU : (h.db.txns u).ctl = .active
      · have hold : h.store.views u = some (h.view u) := if_pos hactiveU
        have hview : h'.view u = (h.view u).lose (h.view t).claimed := by
          refine Snapshot.View.ext ?_ ?_ ?_ ?_
          · funext k
            show (h'.assigned _ k).or _ = (h.assigned _ k).or _
            rw [assigned_congr hschema (hof k.1) fun e _ => hbefore u hu hactiveU e.ptr.owner,
              storedValue_congr hschema hinitial]
          · funext k
            show h'.assigned (fun w => w = u) k = h.assigned (fun w => w = u) k
            exact assigned_congr hschema (hof k.1) fun _ _ => rfl
          · ext slot
            show (∃ e ∈ h'.eventsOf slot, _) ↔ ∃ e ∈ h.eventsOf slot, _
            rw [hof]
          · ext slot
            show (∃ e ∈ h'.eventsOf slot, _ ∧ h'.committed e.ptr.owner = true ∧
              h'.committedBefore u e.ptr.owner = false) ↔ (∃ e ∈ h.eventsOf slot, _) ∨
                ∃ e ∈ h.eventsOf slot, _
            simp only [hof, hbefore u hu hactiveU, hcommitted, Bool.or_eq_true, decide_eq_true_eq]
            constructor
            · rintro ⟨e, he, hne, rfl | hcom, hlate⟩
              · exact .inr ⟨e, he, rfl⟩
              · exact .inl ⟨e, he, hne, hcom, hlate⟩
            · rintro (⟨e, he, hne, hcom, hlate⟩ | ⟨e, he, rfl⟩)
              · exact ⟨e, he, hne, .inr hcom, hlate⟩
              · exact ⟨e, he, Ne.symm hu, .inl rfl, by simp [committedBefore, hactive]⟩
        rw [if_neg hu, hold, Option.map_some, ← hview]
        exact if_pos (by rw [hother u hu]; exact hactiveU)
      · have hnone : h.store.views u = none := if_neg hactiveU
        rw [if_neg hu, hnone]
        exact if_neg (by rw [hother u hu]; exact hactiveU)
  have heq : h'.store = ⟨fun k => ((h.view t).writes k).or (h.store.committed k),
      fun u => if u = t then none else (h.store.views u).map fun w => w.lose (h.view t).claimed⟩ :=
    Snapshot.Store.ext hstore hviews
  rw [heq]
  exact .commit (store_active ht)

end Step

/-! ### Calls that succeed -/

/-- The values that a call gives the columns of its tuple. -/
def values (h : History) (e : Event) (k : Cell) : Option Value :=
  if e.slot = k.1 then e.change.assigned (h.db.schema k.1.tbl) k.2 else none

/-- From `h` to `h'` a transaction under way has made the call `e`. -/
structure Logged (h : History) (e : Event) (h' : History) : Prop where
  schema : h'.db.schema = h.db.schema
  events : h'.events = e :: h.events
  initial : h'.initial = h.initial
  ctl : ∀ u, (h'.db.txns u).ctl = (h.db.txns u).ctl
  start : ∀ u, (h'.db.txns u).start = (h.db.txns u).start
  active : (h.db.txns e.ptr.owner).ctl = .active

namespace Logged

variable {h h' : History} {e : Event} (hl : h.Logged e h')

include hl

theorem mem_eventsOf {slot : Slot} {x : Event} :
    x ∈ h'.eventsOf slot ↔ x = e ∧ e.slot = slot ∨ x ∈ h.eventsOf slot := by
  rw [eventsOf_cons h' hl.events]
  by_cases hslot : e.slot = slot <;> simp [hslot]

theorem committed_eq : h'.committed = h.committed := by
  funext u
  simp [committed, Txn.commitTime, hl.ctl]

theorem committedBefore_eq (u : TxnId) : h'.committedBefore u = h.committedBefore u := by
  funext w
  simp [committedBefore, Txn.commitTime, hl.ctl, hl.start]

theorem not_committed :
    h.committed e.ptr.owner = false := by simp [committed, Txn.commitTime, hl.active]

theorem not_committedBefore (u : TxnId) : h.committedBefore u e.ptr.owner = false := by
  simp [committedBefore, Txn.commitTime, hl.active]

theorem assigned_eq (who : TxnId → Bool) (k : Cell) :
    h'.assigned who k = if who e.ptr.owner = true then (h.values e k).or (h.assigned who k)
      else h.assigned who k := by
  unfold assigned values
  rw [eventsOf_cons h' hl.events, hl.schema]
  by_cases hslot : e.slot = k.1 <;> by_cases howner : who e.ptr.owner = true
  · simp only [hslot, howner, if_true, List.findSome?_cons]
    cases e.change.assigned (h.db.schema k.1.tbl) k.2 <;> rfl
  all_goals simp [hslot, howner]

theorem snapshot_eq (u : TxnId) : (h'.view u).snapshot = (h.view u).snapshot := by
  funext k
  show (h'.assigned (h'.committedBefore u) k).or _ = (h.assigned (h.committedBefore u) k).or _
  rw [hl.committedBefore_eq, hl.assigned_eq (h.committedBefore u),
    storedValue_congr hl.schema hl.initial,
    hl.not_committedBefore]
  rfl

theorem stale_eq (u : TxnId) : (h'.view u).stale = (h.view u).stale := by
  ext slot
  show (∃ x ∈ h'.eventsOf slot, _ ∧ h'.committed x.ptr.owner = true ∧
    h'.committedBefore u x.ptr.owner = false) ↔
    ∃ x ∈ h.eventsOf slot, _
  rw [hl.committed_eq, hl.committedBefore_eq]
  constructor
  · rintro ⟨x, hx, hne, hcom, hlate⟩
    rcases hl.mem_eventsOf.mp hx with ⟨rfl, -⟩ | hx
    · exact absurd (hl.not_committed.symm.trans hcom) (by simp)
    · exact ⟨x, hx, hne, hcom, hlate⟩
  · rintro ⟨x, hx, hrest⟩
    exact ⟨x, hl.mem_eventsOf.mpr (.inr hx), hrest⟩

theorem view_self : h'.view e.ptr.owner = (h.view e.ptr.owner).write e.slot (h.values e) := by
  refine Snapshot.View.ext (hl.snapshot_eq _) ?_ ?_ (hl.stale_eq _)
  · funext k
    show h'.assigned (fun u => u = e.ptr.owner) k =
      (h.values e k).or (h.assigned (fun u => u = e.ptr.owner) k)
    rw [hl.assigned_eq (fun u => u = e.ptr.owner), if_pos (by simp)]
  · ext slot
    show (∃ x ∈ h'.eventsOf slot, _) ↔ slot = e.slot ∨ ∃ x ∈ h.eventsOf slot, _
    constructor
    · rintro ⟨x, hx, howner⟩
      rcases hl.mem_eventsOf.mp hx with ⟨-, rfl⟩ | hx
      · exact .inl rfl
      · exact .inr ⟨x, hx, howner⟩
    · rintro (rfl | ⟨x, hx, howner⟩)
      · exact ⟨e, hl.mem_eventsOf.mpr (.inl ⟨rfl, rfl⟩), rfl⟩
      · exact ⟨x, hl.mem_eventsOf.mpr (.inr hx), howner⟩

theorem view_ne {u : TxnId} (hu : u ≠ e.ptr.owner) : h'.view u = h.view u := by
  refine Snapshot.View.ext (hl.snapshot_eq _) ?_ ?_ (hl.stale_eq _)
  · funext k
    show h'.assigned (fun w => w = u) k = h.assigned (fun w => w = u) k
    rw [hl.assigned_eq (fun w => w = u), if_neg (by simpa using Ne.symm hu)]
  · ext slot
    show (∃ x ∈ h'.eventsOf slot, _) ↔ ∃ x ∈ h.eventsOf slot, _
    constructor
    · rintro ⟨x, hx, rfl⟩
      rcases hl.mem_eventsOf.mp hx with ⟨rfl, -⟩ | hx
      · exact absurd rfl hu
      · exact ⟨x, hx, rfl⟩
    · rintro ⟨x, hx, howner⟩
      exact ⟨x, hl.mem_eventsOf.mpr (.inr hx), howner⟩

/-- What is below a new call belongs to its transaction or is in the snapshot. -/
theorem committedBefore_below (hr' : tableSystem.ReachableBy (HandsOutBelow signBit) h') {x : Event}
    (hx : x ∈ h.eventsOf e.slot) (hne : x.ptr.owner ≠ e.ptr.owner) :
    h.committedBefore e.ptr.owner x.ptr.owner = true := by
  have hord := pairwise_above hr' e.slot
  rw [eventsOf_cons h' hl.events, if_pos rfl] at hord
  have habove := (List.pairwise_cons.mp hord).1 x hx
  rw [Db.Above, if_neg (Ne.symm hne)] at habove
  have hin := (inSnapshot_iff hr' (valid_of_mem hr' (hl.mem_eventsOf.mpr (.inr hx))) hne).mpr habove
  rw [← hl.committedBefore_eq]
  simpa [inSnapshot, hne, committedBefore] using hin

/-- A call that has succeeded is a write of the store: the chains of the tuples see to it that
nobody else has claimed the tuple, and nobody has claimed and committed it since the transaction
began. -/
theorem store_step (hr' : tableSystem.ReachableBy (HandsOutBelow signBit) h') :
    Snapshot.Step Prod.fst h.store (.write e.ptr.owner e.slot (h.values e)) h'.store := by
  have hstore : h'.store = ⟨h.store.committed,
      update h.store.views e.ptr.owner
        (some ((h.view e.ptr.owner).write e.slot (h.values e)))⟩ := by
    refine Snapshot.Store.ext ?_ ?_
    · funext k
      show (h'.assigned h'.committed k).or _ = (h.assigned h.committed k).or _
      rw [hl.committed_eq, hl.assigned_eq h.committed, storedValue_congr hl.schema hl.initial,
        hl.not_committed]
      rfl
    · funext u
      show (if (h'.db.txns u).ctl = .active then some (h'.view u) else none) = update h.store.views
        e.ptr.owner (some _) u
      rw [hl.ctl]
      by_cases hu : u = e.ptr.owner
      · rw [hu, if_pos hl.active, hl.view_self, update_self]
      · rw [hl.view_ne hu, update_of_ne hu]
        rfl
  rw [hstore]
  refine .write (store_active hl.active) ?_ ?_ ?_
  · rintro ⟨x, hx, hne, -, hlate⟩
    exact absurd (hlate.symm.trans (hl.committedBefore_below hr' hx hne)) (by simp)
  · intro u w hu hw hclaimed
    -- who has a view has not committed
    obtain ⟨hactive, rfl⟩ := store_views.mp hw
    obtain ⟨x, hx, howner⟩ := hclaimed
    have hin := hl.committedBefore_below hr' hx (howner ▸ hu)
    simp [committedBefore, howner, Txn.commitTime, hactive] at hin
  · intro k hk
    by_contra hne
    exact hk (if_neg (Ne.symm hne))

end Logged

/-! ### All of them -/

/-- What a table operation is in the store. -/
def act (h : History) : TableAction → Option (Snapshot.Act TxnId Cell Value Slot)
  | .begin t => some (.begin t)
  | .commit t => some (.commit t)
  | .insert t tbl pid chunk =>
      let slot : Slot := ⟨tbl, pid, h.db.count tbl pid⟩
      some (.write t slot
        (h.values ⟨⟨t, (h.db.txns t).undo.length⟩, slot, .inserted chunk (h.db.rows slot)⟩))
  | .write t op slot =>
      if h.db.blocked (h.db.txns t) slot (h.db.versions slot).head? op then none
      else some (.write t slot (h.values ⟨⟨t, (h.db.txns t).undo.length⟩, slot, op.change⟩))

/-- A write goes on with its transaction as it was. -/
theorem txns_write (s : Db) (t : TxnId) (op : WriteOp) (slot : Slot) (u : TxnId) :
    ((s.tableWrite t op slot).txns u).ctl = (s.txns u).ctl ∧
      ((s.tableWrite t op slot).txns u).start = (s.txns u).start := by
  have hupdate : ∃ x, (s.tableWrite t op slot).txns = update s.txns t x ∧ x.ctl = (s.txns t).ctl ∧
      x.start = (s.txns t).start := by
    cases hb : s.blocked (s.txns t) slot (s.versions slot).head? op with
    | true =>
        simp only [Db.tableWrite, hb, if_true]
        exact ⟨_, rfl, rfl, rfl⟩
    | false =>
        simp only [Db.tableWrite, hb, Bool.false_eq_true, if_false]
        exact ⟨_, rfl, rfl, rfl⟩
  obtain ⟨x, htxns, hctl, hstart⟩ := hupdate
  rw [htxns]
  by_cases hu : u = t
  · subst hu
    simp [hctl, hstart]
  · simp [hu]

/-- From `h` to `h'` the store does what the operation is there. -/
def Follows (h : History) (a : TableAction) (h' : History) : Prop :=
  match h.act a with
  | none => h'.store = h.store
  | some b => Snapshot.Step Prod.fst h.store b h'.store

theorem store_step {h h' : History} {a : TableAction}
    (hr : tableSystem.ReachableBy (HandsOutBelow signBit) h)
    (hc : HandsOutBelow signBit h a) (hs : h.step a = some h') : h.Follows a h' := by
  have hr' : tableSystem.ReachableBy (HandsOutBelow signBit) h' := hr.steps (.single hc hs)
  cases stepped_of_step hs with
  | begin ht => exact store_begin hr ht rfl rfl rfl
  | commit ht => exact store_commit hr ht rfl rfl rfl
  | @insert t tbl pid chunk ht =>
      have hother : ∀ u, ((h.insert t tbl pid chunk).db.txns u).ctl = (h.db.txns u).ctl ∧
          ((h.insert t tbl pid chunk).db.txns u).start = (h.db.txns u).start := by
        intro u
        by_cases hu : u = t
        · subst hu
          simp [History.insert, Db.insertTuple]
        · simp [History.insert, Db.insertTuple, hu]
      have hl : h.Logged _ (h.insert t tbl pid chunk) :=
        { schema := rfl
          events := rfl
          initial := rfl
          ctl := fun u => (hother u).1
          start := fun u => (hother u).2
          active := ht }
      exact hl.store_step hr'
  | @blocked t op slot ht halloc hb =>
      have hact : h.act (.write t op slot) = none := if_pos hb
      have hkept := txns_write h.db t op slot
      have hcommit : ∀ u, ((h.db.tableWrite t op slot).txns u).commitTime =
          (h.db.txns u).commitTime := fun u => by
        simp [Txn.commitTime, (hkept u).1]
      have hschema : (h.db.tableWrite t op slot).schema = h.db.schema := by
        rw [Db.tableWrite, if_pos hb]
        rfl
      rw [Follows, hact]
      refine Snapshot.Store.ext (committed_congr hschema rfl rfl fun e _ => hcommit _)
        (funext fun u => ?_)
      have hview : view { h with db := h.db.tableWrite t op slot } u = h.view u :=
        view_congr hschema rfl rfl (hkept u).2 fun e _ => hcommit _
      show (if ((h.db.tableWrite t op slot).txns u).ctl = .active then some (view _ u) else none) =
        _
      rw [(hkept u).1, hview]
      rfl
  | @write t op slot ht halloc hb =>
      have hact : h.act (.write t op slot) =
          some (.write t slot (h.values ⟨⟨t, (h.db.txns t).undo.length⟩, slot, op.change⟩)) :=
        if_neg (by simp [hb])
      have hschema : (h.db.tableWrite t op slot).schema = h.db.schema := by
        rw [Db.tableWrite, if_neg (by simp [hb])]
        rfl
      have hkept := txns_write h.db t op slot
      rw [Follows, hact]
      have hl : h.Logged _ (h.writeLogged t op slot) :=
        { schema := hschema
          events := rfl
          initial := rfl
          ctl := fun u => (hkept u).1
          start := fun u => (hkept u).2
          active := ht }
      exact hl.store_step hr'

theorem store_reached {h : History} (hr : tableSystem.ReachableBy (HandsOutBelow signBit) h) :
    Snapshot.Reached Prod.fst h.store := by
  obtain ⟨h₀, hinit, hrun⟩ := hr
  induction hrun with
  | refl =>
      obtain ⟨⟨_, _, htxns, _, _⟩, _, _, _⟩ := hinit
      exact ⟨_, fun t => if_neg (by simp [htxns]), .refl⟩
  | @tail h' h'' a hrun hc hs ih =>
      have hstep := store_step ⟨h₀, hinit, hrun⟩ hc hs
      cases hact : h'.act a with
      | none =>
          rw [Follows, hact] at hstep
          exact hstep ▸ ih
      | some b =>
          rw [Follows, hact] at hstep
          exact ih.step hstep

end History

end Db7
