import Db7.Txn.CommitVisits
import Mathlib.Data.Finset.Card
import Mathlib.Data.Finset.Lattice.Basic

/-!
# The commit latch orders commits against snapshots

A transaction that commits raises the latch before it checks out its commit
time and lowers it after its last restamp; a transaction that begins checks
out its start time first and returns only after it has read the latch as zero.

* **latch** (`CommitInv.latch`): the counter is the number of transactions
  between the two, so zero means that nobody is restamping;
* **timestamps** (`CommitInv.distinct`): every value handed out is below the
  counter, so the next one is new, until the counter wraps;
* **stamps** (`Txn.Ok.stamps`): a record carries the finish time of its owner
  until the restamping loop reaches it, the commit time from then on.
-/

namespace Db7

open Lib Function

namespace Txn

/-- The commit time, once it is checked out. -/
def commitTime (x : Txn) : Option Nat :=
  match x.ctl with
  | .restamping c _ | .committed c => some c
  | _ => none

/-- Between `Lock` and `Unlock` of the commit latch. -/
def inCommit (x : Txn) : Bool :=
  match x.ctl with
  | .locked | .restamping _ _ => true
  | _ => false

/-- The timestamp the `j`-th undo record carries. -/
def stampAt (x : Txn) (j : Nat) : Nat :=
  match x.ctl with
  | .restamping c i => if j < i then c else x.finish
  | .committed c => c
  | _ => x.finish

/-- The undo records of one transaction at every step. -/
structure Ok (x : Txn) : Prop where
  fresh : x.ctl = .idle ∨ x.ctl = .spinning → x.undo = []
  finish : x.ctl ≠ .idle → x.finish = finishTimeOf x.start
  commit : ∀ c, x.commitTime = some c → x.start < c
  stamps : ∀ (j : Nat) (r : UndoRecord), x.undo[j]? = some r → r.timestamp = x.stampAt j

theorem ctl_of_running {x : Txn} (h : x.running = true) :
    x.ctl ≠ .idle ∧ x.ctl ≠ .spinning ∧ x.commitTime = none ∧ x.inCommit = false := by
  unfold running at h
  split at h <;> simp_all [commitTime, inCommit]

theorem stampAt_of_running {x : Txn} (h : x.running = true) (j : Nat) :
    x.stampAt j = x.finish := by
  unfold running at h
  unfold stampAt
  split at h <;> simp_all

theorem begun_of_inCommit {x : Txn} (h : x.inCommit = true) : x.ctl ≠ .idle := by
  rintro hidle
  simp [inCommit, hidle] at h

theorem Ok.running_stamps {x : Txn} (h : x.Ok) (hr : x.running = true) :
    ∀ r ∈ x.undo, r.timestamp = x.finish := by
  intro r hmem
  obtain ⟨j, hj⟩ := List.mem_iff_getElem?.mp hmem
  rw [h.stamps j r hj, stampAt_of_running hr]

/-- Once committed, every record carries the commit time. -/
theorem Ok.committed_stamps {x : Txn} (h : x.Ok) {c : Nat} (hc : x.ctl = .committed c) :
    ∀ r ∈ x.undo, r.timestamp = c := by
  intro r hmem
  obtain ⟨j, hj⟩ := List.mem_iff_getElem?.mp hmem
  rw [h.stamps j r hj, stampAt, hc]

end Txn

namespace Db

/-- Every timestamp handed out so far: the start time of a transaction that
has begun and its commit time. -/
def handedOut (s : Db) : TxnId × Bool → Option Nat
  | (t, false) => if (s.txns t).ctl = .idle then none else some (s.txns t).start
  | (t, true) => (s.txns t).commitTime

/-- The next step checks out a timestamp. -/
def checksOut (s : Db) : Action → Bool
  | .begin _ => true
  | .run t => (s.txns t).ctl = .locked
  | _ => false

/-- Timestamps are only handed out below `bound`. -/
def HandsOutBelow (bound : Nat) (s : Db) (a : Action) : Prop :=
  s.checksOut a → s.time < bound

instance (bound : Nat) (s : Db) (a : Action) : Decidable (HandsOutBelow bound s a) :=
  inferInstanceAs (Decidable (_ → _))

/-- No value was handed out twice. -/
def TimestampsDistinct (s : Db) : Prop :=
  ∀ p q c, s.handedOut p = some c → s.handedOut q = some c → p = q

/-- The invariant of `BeginTransaction` and `Commit`. -/
structure CommitInv (bound : Nat) (s : Db) : Prop where
  ok : ∀ t, (s.txns t).Ok
  below : ∀ p c, s.handedOut p = some c → c < s.time
  distinct : s.TimestampsDistinct
  latch : ∃ F : Finset TxnId,
    (∀ t, t ∈ F ↔ (s.txns t).inCommit = true) ∧ s.commitLatch = F.card
  time_le : s.time ≤ bound

/-! ## What each kind of step changes -/

/-- A step that keeps the counter and hands nothing out. -/
theorem handedOut_of_same {s s' : Db} {t : TxnId} (others : ∀ u, u ≠ t → s'.txns u = s.txns u)
    (hi : (s.txns t).ctl ≠ .idle) (hi' : (s'.txns t).ctl ≠ .idle)
    (hs : (s'.txns t).start = (s.txns t).start)
    (hc : (s'.txns t).commitTime = (s.txns t).commitTime) : s'.handedOut = s.handedOut := by
  funext ⟨u, b⟩
  by_cases hu : u = t
  · subst hu
    cases b <;> simp [handedOut, hi, hi', hs, hc]
  · cases b <;> simp [handedOut, others u hu]

/-- Handing out the counter's value keeps every value below the counter and
all of them distinct. -/
theorem handOut_step {s : Db} (s' : Db) {q : TxnId × Bool} {bound : Nat} (hb : bound < 2 ^ 64)
    (hlt : s.time < bound) (htime : s'.time = (checkOutTimestamp s.time).2)
    (hq : s'.handedOut q = some s.time)
    (hne : ∀ p, p ≠ q → s'.handedOut p = s.handedOut p)
    (below : ∀ p c, s.handedOut p = some c → c < s.time) (distinct : s.TimestampsDistinct) :
    (∀ p c, s'.handedOut p = some c → c < s'.time) ∧ s'.TimestampsDistinct ∧
      s'.time ≤ bound := by
  have htime' : s'.time = s.time + 1 := by
    rw [htime, checkOutTimestamp, u64_of_lt (by omega)]
  have hold : ∀ p c, s'.handedOut p = some c → c ≤ s.time ∧ (c = s.time → p = q) := by
    intro p c hp
    by_cases hpq : p = q
    · subst hpq
      rw [hq, Option.some.injEq] at hp
      exact ⟨hp ▸ le_rfl, fun _ => rfl⟩
    · rw [hne p hpq] at hp
      have := below p c hp
      exact ⟨by omega, fun h => by omega⟩
  refine ⟨fun p c hp => ?_, ?_, by omega⟩
  · have := (hold p c hp).1
    omega
  · intro p p' c hp hp'
    by_cases hc : c = s.time
    · rw [(hold p c hp).2 hc, (hold p' c hp').2 hc]
    · have hpq : ∀ r, s'.handedOut r = some c → r ≠ q := by
        rintro r hr rfl
        rw [hq, Option.some.injEq] at hr
        exact hc hr.symm
      rw [hne p (hpq p hp)] at hp
      rw [hne p' (hpq p' hp')] at hp'
      exact distinct p p' c hp hp'

/-- Transactions that have begun hold distinct start times below the counter,
so there are at most as many of them as the counter says. -/
theorem card_begun_le {bound : Nat} {s : Db} (h : CommitInv bound s) {F : Finset TxnId}
    (hF : ∀ t ∈ F, (s.txns t).ctl ≠ .idle) : F.card ≤ s.time := by
  have hstart : ∀ t ∈ F, s.handedOut (t, false) = some (s.txns t).start := by
    intro t ht
    simp [handedOut, hF t ht]
  have hmaps : Set.MapsTo (fun t => (s.txns t).start) F (Finset.range s.time) := by
    intro t ht
    simpa using h.below _ _ (hstart t ht)
  have hinj : Set.InjOn (fun t => (s.txns t).start) F := by
    intro t ht u hu htu
    have hu' := hstart u hu
    rw [← show (s.txns t).start = (s.txns u).start from htu] at hu'
    exact congrArg Prod.fst (h.distinct _ _ _ (hstart t ht) hu')
  simpa using Finset.card_le_card_of_injOn _ hmaps hinj

/-- A step that does not enter or leave `Commit` keeps the latch's count. -/
theorem latch_of_same {s s' : Db} {t : TxnId} (others : ∀ u, u ≠ t → s'.txns u = s.txns u)
    (hin : (s'.txns t).inCommit = (s.txns t).inCommit)
    (hl : s'.commitLatch = s.commitLatch)
    (h : ∃ F : Finset TxnId,
      (∀ t, t ∈ F ↔ (s.txns t).inCommit = true) ∧ s.commitLatch = F.card) :
    ∃ F : Finset TxnId,
      (∀ t, t ∈ F ↔ (s'.txns t).inCommit = true) ∧ s'.commitLatch = F.card := by
  obtain ⟨F, hF, hcard⟩ := h
  refine ⟨F, fun u => ?_, by rw [hl, hcard]⟩
  by_cases hu : u = t
  · subst hu; rw [hF, hin]
  · rw [hF, others u hu]

theorem commitInv_write {bound : Nat} {s s' : Db} {t : TxnId} (h : CommitInv bound s)
    (w : WriteStep s t s') : CommitInv bound s' := by
  obtain ⟨hidle, -, hcommit, hin⟩ := Txn.ctl_of_running w.before
  obtain ⟨hidle', hspin', hcommit', hin'⟩ := Txn.ctl_of_running w.after
  have hout : s'.handedOut = s.handedOut :=
    handedOut_of_same w.others hidle hidle' w.start (by rw [hcommit, hcommit'])
  refine ⟨fun u => ?_, ?_, ?_, latch_of_same w.others (by rw [hin, hin']) w.commitLatch h.latch,
    w.time ▸ h.time_le⟩
  · by_cases hu : u = t
    · subst hu
      refine ⟨fun hc => (hc.elim hidle' hspin').elim, fun _ => ?_, ?_, fun j r hr => ?_⟩
      · rw [w.finish, w.start, (h.ok u).finish hidle]
      · rw [hcommit']; simp
      · rw [Txn.stampAt_of_running w.after, w.finish]
        exact w.stamps ((h.ok u).running_stamps w.before) r (List.mem_of_getElem? hr)
    · rw [w.others u hu]; exact h.ok u
  · rw [hout, w.time]; exact h.below
  · intro p q c
    rw [hout]; exact h.distinct p q c

/-! ## The steps of `BeginTransaction` and `Commit` -/

section Steps

variable {bound : Nat} {s : Db} {t : TxnId}

theorem commitInv_begin (hb : bound < 2 ^ 64) (h : CommitInv bound s)
    (hctl : (s.txns t).ctl = .idle) (hlt : s.time < bound) :
    CommitInv bound (s.beginTransaction t) := by
  obtain ⟨hbelow, hdistinct, hle⟩ := handOut_step (s.beginTransaction t)
    (q := (t, false)) hb hlt rfl (by simp [handedOut])
    (by
      rintro ⟨u, b⟩ hp
      by_cases hu : u = t
      · subst hu
        cases b
        · exact absurd rfl hp
        · simp [handedOut, Txn.commitTime, hctl]
      · cases b <;> simp [handedOut, hu])
    h.below h.distinct
  refine ⟨fun u => ?_, hbelow, hdistinct, ?_, hle⟩
  · by_cases hu : u = t
    · subst hu
      simp only [beginTransaction_txns, update_self]
      exact ⟨fun _ => rfl, fun _ => rfl, by simp [Txn.commitTime], by simp⟩
    · simpa [hu] using h.ok u
  · exact latch_of_same (s := s) (t := t) (fun u hu => by simp [hu])
      (by simp [Txn.inCommit, hctl]) rfl h.latch

theorem commitInv_spin (h : CommitInv bound s) (hctl : (s.txns t).ctl = .spinning) :
    CommitInv bound (s.tryLatch t) := by
  unfold tryLatch
  split
  · exact h
  · have hout : (s.setTxn t { s.txns t with ctl := .active }).handedOut = s.handedOut :=
      handedOut_of_same (t := t) (fun u hu => by simp [hu]) (by simp [hctl]) (by simp)
        (by simp) (by simp [Txn.commitTime, hctl])
    refine ⟨fun u => ?_, ?_, ?_, ?_, h.time_le⟩
    · by_cases hu : u = t
      · subst hu
        have hundo := (h.ok u).fresh (.inr hctl)
        simp only [setTxn_txns, update_self]
        exact ⟨by simp, fun _ => (h.ok u).finish (by simp [hctl]), by simp [Txn.commitTime],
          by simp [hundo]⟩
      · simpa [hu] using h.ok u
    · rw [hout]; exact h.below
    · intro p q c; rw [hout]; exact h.distinct p q c
    · exact latch_of_same (s := s) (t := t) (fun u hu => by simp [hu])
        (by simp [Txn.inCommit, hctl]) rfl h.latch

theorem commitInv_lock (hb : bound < 2 ^ 64) (h : CommitInv bound s)
    (hctl : (s.txns t).ctl = .active) : CommitInv bound (s.lockLatch t) := by
  have hrun : (s.txns t).running = true := by simp [Txn.running, hctl]
  have hout : (s.lockLatch t).handedOut = s.handedOut :=
    handedOut_of_same (t := t) (fun u hu => by simp [hu]) (by simp [hctl])
      (by simp) (by simp) (by simp [Txn.commitTime, hctl])
  refine ⟨fun u => ?_, ?_, ?_, ?_, h.time_le⟩
  · by_cases hu : u = t
    · subst hu
      simp only [lockLatch_txns, update_self]
      refine ⟨by simp, fun _ => (h.ok u).finish (by simp [hctl]), by simp [Txn.commitTime],
        fun j r hr => ?_⟩
      exact (h.ok u).running_stamps hrun r (List.mem_of_getElem? hr)
    · simpa [hu] using h.ok u
  · rw [hout]; exact h.below
  · intro p q c; rw [hout]; exact h.distinct p q c
  · obtain ⟨F, hF, hcard⟩ := h.latch
    have hnot : t ∉ F := by simp [hF, Txn.inCommit, hctl]
    have hle : (insert t F).card ≤ s.time := by
      refine card_begun_le h fun u hu => ?_
      rcases Finset.mem_insert.mp hu with rfl | hu
      · simp [hctl]
      · exact Txn.begun_of_inCommit ((hF u).mp hu)
    have htime := h.time_le
    refine ⟨insert t F, fun u => ?_, ?_⟩
    · by_cases hu : u = t
      · subst hu; simp [Txn.inCommit]
      · simp [hu, hF]
    · rw [Finset.card_insert_of_notMem hnot] at hle ⊢
      simp only [lockLatch, hcard]
      exact u64_of_lt (by omega)

theorem commitInv_checkOut (hb : bound < 2 ^ 64) (h : CommitInv bound s)
    (hctl : (s.txns t).ctl = .locked) (hlt : s.time < bound) :
    CommitInv bound (s.checkOutCommit t) := by
  have hstart : s.handedOut (t, false) = some (s.txns t).start := by simp [handedOut, hctl]
  have hstamps : ∀ r ∈ (s.txns t).undo, r.timestamp = (s.txns t).finish := by
    intro r hr
    obtain ⟨j, hj⟩ := List.mem_iff_getElem?.mp hr
    rw [(h.ok t).stamps j r hj, Txn.stampAt, hctl]
  obtain ⟨hbelow, hdistinct, hle⟩ := handOut_step (s.checkOutCommit t)
    (q := (t, true)) hb hlt rfl
    (by simp [handedOut, Txn.commitTime])
    (by
      rintro ⟨u, b⟩ hp
      by_cases hu : u = t
      · subst hu
        cases b
        · simp [handedOut, hctl]
        · exact absurd rfl hp
      · cases b <;> simp [handedOut, hu])
    h.below h.distinct
  refine ⟨fun u => ?_, hbelow, hdistinct, ?_, hle⟩
  · by_cases hu : u = t
    · subst hu
      have := h.below _ _ hstart
      simp only [checkOutCommit_txns, update_self]
      refine ⟨by simp, fun _ => (h.ok u).finish (by simp [hctl]), ?_, fun j r hr => ?_⟩
      · simpa [Txn.commitTime] using this
      · simpa [Txn.stampAt] using hstamps r (List.mem_of_getElem? hr)
    · simpa [hu] using h.ok u
  · exact latch_of_same (s := s) (t := t) (fun u hu => by simp [hu])
      (by simp [Txn.inCommit, hctl]) rfl h.latch

theorem commitInv_restamp (h : CommitInv bound s) {c i : Nat}
    (hctl : (s.txns t).ctl = .restamping c i) : CommitInv bound (s.restampOne t c i) := by
  have hcommit : (s.txns t).commitTime = some c := by simp [Txn.commitTime, hctl]
  have hout : (s.restampOne t c i).handedOut = s.handedOut :=
    handedOut_of_same (t := t) (fun u hu => by simp [restampOne, hu]) (by simp [hctl])
      (by simp [restampOne]) (by simp [restampOne])
      (by simp [restampOne, Txn.commitTime, hctl])
  refine ⟨fun u => ?_, ?_, ?_, ?_, h.time_le⟩
  · by_cases hu : u = t
    · subst hu
      simp only [restampOne, setTxn_txns, update_self]
      refine ⟨by simp, fun _ => (h.ok u).finish (by simp [hctl]), ?_, fun j r hr => ?_⟩
      · intro c' hc'
        obtain rfl : c = c' := by simpa [Txn.commitTime] using hc'
        exact (h.ok u).commit c hcommit
      · -- the record of this step takes the commit time, the others keep theirs
        rw [List.getElem?_modify] at hr
        obtain ⟨r₀, hr₀, rfl⟩ := Option.map_eq_some_iff.mp hr
        have hold := (h.ok u).stamps j r₀ hr₀
        simp only [Txn.stampAt, hctl] at hold ⊢
        by_cases hij : i = j
        · simp [hij]
        · simp only [hij, if_false, hold]
          have : j < i ↔ j < i + 1 := by omega
          simp [this]
    · simpa [restampOne, hu] using h.ok u
  · rw [hout]; exact h.below
  · intro p q c'; rw [hout]; exact h.distinct p q c'
  · exact latch_of_same (s := s) (t := t) (fun u hu => by simp [restampOne, hu])
      (by simp [restampOne, Txn.inCommit, hctl]) rfl h.latch

theorem commitInv_unlock (h : CommitInv bound s) {c i : Nat}
    (hctl : (s.txns t).ctl = .restamping c i) (hi : (s.txns t).undo.length ≤ i) :
    CommitInv bound (s.unlockLatch t c) := by
  have hcommit : (s.txns t).commitTime = some c := by simp [Txn.commitTime, hctl]
  have hout : (s.unlockLatch t c).handedOut = s.handedOut :=
    handedOut_of_same (t := t) (fun u hu => by simp [hu]) (by simp [hctl])
      (by simp) (by simp) (by simp [Txn.commitTime, hctl])
  refine ⟨fun u => ?_, ?_, ?_, ?_, h.time_le⟩
  · by_cases hu : u = t
    · subst hu
      simp only [unlockLatch_txns, update_self]
      refine ⟨by simp, fun _ => (h.ok u).finish (by simp [hctl]), ?_, fun j r hr => ?_⟩
      · intro c' hc'
        obtain rfl : c = c' := by simpa [Txn.commitTime] using hc'
        exact (h.ok u).commit c hcommit
      · have hj : j < (s.txns u).undo.length := (List.getElem?_eq_some_iff.mp hr).1
        have hold := (h.ok u).stamps j r hr
        simp only [Txn.stampAt, hctl] at hold ⊢
        rw [hold, if_pos (by omega)]
    · simpa [hu] using h.ok u
  · rw [hout]; exact h.below
  · intro p q c'; rw [hout]; exact h.distinct p q c'
  · obtain ⟨F, hF, hcard⟩ := h.latch
    have hmem : t ∈ F := by simp [hF, Txn.inCommit, hctl]
    have hpos : 0 < F.card := Finset.card_pos.mpr ⟨t, hmem⟩
    refine ⟨F.erase t, fun u => ?_, ?_⟩
    · by_cases hu : u = t
      · subst hu; simp [Txn.inCommit]
      · simp [hu, hF]
    · rw [Finset.card_erase_of_mem hmem]
      simp only [unlockLatch, u64Pred, hcard]
      rw [if_neg (by omega)]

end Steps

theorem commitInv_init {bound : Nat} {s : Db} (h : s.Init) : CommitInv bound s := by
  obtain ⟨htime, hlatch, htxns, -, -⟩ := h
  have hout : ∀ p, s.handedOut p = none := by
    rintro ⟨t, b⟩
    cases b <;> simp [handedOut, htxns, Txn.commitTime]
  refine ⟨fun t => ?_, ?_, ?_, ⟨∅, ?_, by simp [hlatch]⟩, by simp [htime, initialTxnTimestamp]⟩
  · rw [htxns]
    exact ⟨fun _ => rfl, by simp, by simp [Txn.commitTime], by simp⟩
  · intro p c hp; simp [hout] at hp
  · intro p q c hp; simp [hout] at hp
  · intro t; simp [htxns, Txn.inCommit]

theorem commitInv_step {bound : Nat} (hb : bound < 2 ^ 64) {s s' : Db} {a : Action}
    (h : CommitInv bound s) (hc : HandsOutBelow bound s a) (hs : s.step a = some s') :
    CommitInv bound s' := by
  rcases (stepped_of_step hs).kind with ⟨t, rfl, hctl, rfl⟩ | ⟨t, rfl, hctl, rfl⟩ |
    ⟨t, rfl, hctl, rfl⟩ | ⟨t, rfl, hctl, rfl⟩ | ⟨t, c, i, rfl, hctl, -, rfl⟩ |
    ⟨t, c, i, rfl, hctl, hi, rfl⟩ | ⟨t, w⟩
  · exact commitInv_begin hb h hctl (hc rfl)
  · exact commitInv_spin h hctl
  · exact commitInv_lock hb h hctl
  · exact commitInv_checkOut hb h hctl (hc (by simp [checksOut, hctl]))
  · exact commitInv_restamp h hctl
  · exact commitInv_unlock h hctl hi
  · exact commitInv_write h w

theorem commitInv_reachable {bound : Nat} (hb : bound < 2 ^ 64) {s : Db}
    (h : txnSystem.ReachableBy (HandsOutBelow bound) s) : CommitInv bound s :=
  h.invariant (fun _ => commitInv_init) fun _ _ _ hi hc hs => commitInv_step hb hi hc hs

/-! ## Snapshots -/

/-- From the return of a `BeginTransaction` with start time `start` on: a
commit time is either that of one of the transactions that had committed by
then, or greater than `start`. -/
structure SnapshotInv (start : Nat) (done : TxnId → Prop) (s : Db) : Prop where
  start_lt : start < s.time
  commits : ∀ u c, (s.txns u).commitTime = some c →
    (done u ∧ (s.txns u).ctl = .committed c) ∨ start < c

/-- A transaction whose step leaves its commit time alone. -/
theorem SnapshotInv.of_same {start : Nat} {done : TxnId → Prop} {s s' : Db} {t : TxnId}
    (h : SnapshotInv start done s) (others : ∀ u, u ≠ t → s'.txns u = s.txns u)
    (time : s.time ≤ s'.time) (hctl : ∀ c, (s.txns t).ctl ≠ .committed c)
    (hcommit : ∀ c, (s'.txns t).commitTime = some c →
      (s.txns t).commitTime = some c ∨ start < c) :
    SnapshotInv start done s' := by
  refine ⟨lt_of_lt_of_le h.start_lt time, fun u c hc => ?_⟩
  by_cases hu : u = t
  · subst hu
    rcases hcommit c hc with hold | hlt
    · exact .inr ((h.commits u c hold).resolve_left fun hd => hctl c hd.2)
    · exact .inr hlt
  · rw [others u hu] at hc ⊢
    exact h.commits u c hc

theorem snapshotInv_step {bound : Nat} (hb : bound < 2 ^ 64) {start : Nat}
    {done : TxnId → Prop} {s s' : Db} {a : Action} (h : SnapshotInv start done s)
    (hc : HandsOutBelow bound s a) (hs : s.step a = some s') :
    SnapshotInv start done s' := by
  have hnext : s.checksOut a → s.time ≤ u64 (s.time + 1) := by
    intro ha
    have := hc ha
    rw [u64_of_lt (by omega)]
    omega
  rcases (stepped_of_step hs).kind with ⟨t, rfl, hctl, rfl⟩ | ⟨t, rfl, hctl, rfl⟩ |
    ⟨t, rfl, hctl, rfl⟩ | ⟨t, rfl, hctl, rfl⟩ | ⟨t, c, i, rfl, hctl, -, rfl⟩ |
    ⟨t, c, i, rfl, hctl, hi, rfl⟩ | ⟨t, w⟩
  · exact h.of_same (t := t) (fun u hu => by simp [hu]) (hnext rfl) (by simp [hctl])
      (by simp [Txn.commitTime])
  · unfold tryLatch
    split
    · exact h
    · exact h.of_same (t := t) (fun u hu => by simp [hu]) le_rfl (by simp [hctl])
        (by simp [Txn.commitTime])
  · exact h.of_same (t := t) (fun u hu => by simp [hu]) le_rfl (by simp [hctl])
      (by simp [Txn.commitTime])
  · refine h.of_same (t := t) (fun u hu => by simp [hu])
      (hnext (by simp [checksOut, hctl])) (by simp [hctl]) fun c hc => .inr ?_
    -- the commit time checked out now is the counter's value, past `start`
    obtain rfl : s.time = c := by simpa [Txn.commitTime] using hc
    exact h.start_lt
  · exact h.of_same (t := t) (fun u hu => by simp [restampOne, hu]) le_rfl (by simp [hctl])
      (by simp [restampOne, Txn.commitTime, hctl])
  · exact h.of_same (t := t) (fun u hu => by simp [hu]) le_rfl (by simp [hctl])
      (by simp [Txn.commitTime, hctl])
  · have hrun := (Txn.ctl_of_running w.after).2.2.1
    refine h.of_same w.others (by rw [w.time]) ?_ (by simp [hrun])
    intro c hcc
    have := w.before
    simp [Txn.running, hcc] at this

/-- When the spin reads zero, every commit time belongs to a transaction that
is done. -/
theorem snapshotInv_return {bound : Nat} {s : Db} {t : TxnId} (h : CommitInv bound s)
    (hbegun : (s.txns t).ctl = .spinning) (hzero : ¬ s.commitLatch > 0) :
    SnapshotInv (s.txns t).start (fun u => ∃ c, (s.txns u).ctl = .committed c) s := by
  refine ⟨h.below (t, false) _ (by simp [handedOut, hbegun]), fun u c hc => .inl ?_⟩
  obtain ⟨F, hF, hcard⟩ := h.latch
  have hempty : F = ∅ := Finset.card_eq_zero.mp (by omega)
  have hout : (s.txns u).inCommit = false := by
    by_contra hin
    have := (hF u).mpr (by simpa using hin)
    simp [hempty] at this
  have hctl : (s.txns u).ctl = .committed c := by
    unfold Txn.commitTime at hc
    unfold Txn.inCommit at hout
    split at hc <;> simp_all
  exact ⟨⟨c, hctl⟩, hctl⟩

/-- What `snapshot_complete` says, where `Commit` walks over the records. -/
theorem complete_of_begun {s s' s'' : Db} {t : TxnId}
    (hr : txnSystem.ReachableBy (HandsOutBelow (2 ^ 64 - 1)) s)
    (hspin : s.step (.spin t) = some s') (hreturn : (s'.txns t).ctl = .active)
    (hlater : txnSystem.Steps (HandsOutBelow (2 ^ 64 - 1)) s' s'') :
    (∀ u c, (s''.txns u).commitTime = some c → c < (s'.txns t).start →
      ∀ r ∈ (s''.txns u).undo, r.timestamp = c) ∧
    (∀ u, (∀ c, (s'.txns u).ctl ≠ .committed c) →
      ∀ c, (s''.txns u).commitTime = some c → (s'.txns t).start < c) ∧
    s''.TimestampsDistinct := by
  have hb : 2 ^ 64 - 1 < 2 ^ 64 := by omega
  have hi := commitInv_reachable hb hr
  have hi' := commitInv_step hb hi (by simp [HandsOutBelow, checksOut]) hspin
  have hi'' : CommitInv (2 ^ 64 - 1) s'' :=
    hlater.invariant (fun _ _ _ h hc hs => commitInv_step hb h hc hs) hi'
  obtain ⟨hctl, rfl⟩ : (s.txns t).ctl = .spinning ∧ s.tryLatch t = s' := by
    simpa [step] using hspin
  have hzero : ¬ s.commitLatch > 0 := by
    intro hpos
    simp [tryLatch, hpos, hctl] at hreturn
  have hdone : ∀ u c, ((s.tryLatch t).txns u).ctl = .committed c ↔
      (s.txns u).ctl = .committed c := by
    intro u c
    by_cases hu : u = t
    · subst hu; simp [hreturn, hctl]
    · simp [tryLatch, hzero, hu]
  have hstart : ((s.tryLatch t).txns t).start = (s.txns t).start := by
    simp [tryLatch, hzero]
  have hsnap' := snapshotInv_step hb (snapshotInv_return hi hctl hzero)
    (by simp [HandsOutBelow, checksOut]) hspin
  have hsnap : SnapshotInv (s.txns t).start _ s'' :=
    hlater.invariant_of (fun _ _ _ h hc hs => commitInv_step hb h hc hs)
      (fun _ _ _ _ hp hc hs => snapshotInv_step hb hp hc hs) hi' hsnap'
  refine ⟨fun u c hc hlt => ?_, fun u hnot c hc => ?_, hi''.distinct⟩
  · rw [hstart] at hlt
    rcases hsnap.commits u c hc with ⟨-, hcom⟩ | hgt
    · exact (hi''.ok u).committed_stamps hcom
    · omega
  · rw [hstart]
    rcases hsnap.commits u c hc with ⟨⟨c', hc'⟩, -⟩ | hgt
    · exact absurd ((hdone u c').mpr hc') (hnot c')
    · exact hgt

/-- **A returned snapshot is complete.** Where every `Commit` visits all of its records: from
the moment `BeginTransaction` returns a start time on, every transaction with a smaller commit
time has all its undo records stamped with it, every transaction that had not finished its
commit by then has or gets a greater commit time, and no timestamp was handed out twice. -/
theorem snapshot_complete {memory : UndoMemory} {x x' x'' : WithUndo Db} {t : TxnId}
    (hr : (txnHost.withUndo memory).ReachableBy
      (txnHost.CommitsWhole memory (HandsOutBelow (2 ^ 64 - 1))) x)
    (hspin : (txnHost.withUndo memory).step x (.spin t) = some x')
    (hreturn : (x'.state.txns t).ctl = .active)
    (hlater : (txnHost.withUndo memory).Steps
      (txnHost.CommitsWhole memory (HandsOutBelow (2 ^ 64 - 1))) x' x'') :
    (∀ u c, (x''.state.txns u).commitTime = some c → c < (x'.state.txns t).start →
      ∀ r ∈ (x''.state.txns u).undo, r.timestamp = c) ∧
    (∀ u, (∀ c, (x'.state.txns u).ctl ≠ .committed c) →
      ∀ c, (x''.state.txns u).commitTime = some c → (x'.state.txns t).start < c) ∧
    x''.state.TimestampsDistinct := by
  obtain ⟨hreach, hmatches⟩ := TxnHost.reachable_of_commitsWhole hr
  have hc : txnHost.CommitsWhole memory (HandsOutBelow (2 ^ 64 - 1)) x (.spin t) :=
    ⟨by simp [HandsOutBelow, checksOut], fun u hu => by cases hu⟩
  obtain ⟨hstep, hmatches'⟩ := TxnHost.step_of_commitsWhole hmatches hc hspin
  exact complete_of_begun hreach hstep hreturn (TxnHost.steps_of_commitsWhole hmatches' hlater).1

/-- No tables, no transactions. -/
def empty : Db where
  time := initialTxnTimestamp
  commitLatch := 0
  txns := fun _ => ⟨.idle, 0, 0, [], []⟩
  versions := fun _ => []
  schema := fun _ => ⟨[], List.nodup_nil⟩
  count := fun _ _ => 0
  rows := fun _ _ => []
  deletedBit := fun _ => false
  latch := fun _ _ => none

theorem empty_init : empty.Init :=
  ⟨rfl, rfl, fun _ => rfl, fun _ => rfl, fun _ _ => rfl⟩

/-- Transaction 0 inserts a row and commits; transaction 1 checks out its
start time. -/
def insertThenBegin : List Action :=
  [.begin 0, .spin 0, .insert 0 1 1 [], .commit 0, .run 0, .run 0, .run 0, .begin 1]

theorem snapshot_complete_insertThenBegin :
    ∃ x x' : WithUndo Db, (txnHost.withUndo .zeroed).ReachableBy
        (txnHost.CommitsWhole .zeroed (HandsOutBelow (2 ^ 64 - 1))) x ∧
      (txnHost.withUndo .zeroed).step x (.spin 1) = some x' ∧ (x'.state.txns 1).start = 2 ∧
      (x'.state.txns 0).commitTime = some 1 ∧ (x'.state.txns 0).undo ≠ [] ∧
      ∀ r ∈ (x'.state.txns 0).undo, r.timestamp = 1 := by
  let s := (txnSystem.exec (HandsOutBelow (2 ^ 64 - 1)) empty insertThenBegin).get (by decide)
  have hs : txnSystem.exec (HandsOutBelow (2 ^ 64 - 1)) empty insertThenBegin = some s :=
    (Option.some_get _).symm
  have hundo : ((s.tryLatch 1).txns 0).undo ≠ [] := by decide
  have hlater : 1 < ((s.tryLatch 1).txns 1).start := by decide
  obtain ⟨calls, hr, -⟩ := txnHost.exists_reachable ⟨empty, empty_init, .of_exec _ hs⟩
  exact ⟨⟨s, calls⟩, ⟨s.tryLatch 1, calls⟩, hr, rfl, rfl, rfl, hundo,
    (snapshot_complete (t := 1) hr rfl rfl .refl).1 0 1 rfl hlater⟩

/-- From `s`, the transactions below `n` have begun. -/
def afterBegins (s : Db) : Nat → Db
  | 0 => s
  | n + 1 => (afterBegins s n).beginAlone n

section AfterBegins

variable {s : Db}

theorem beginAlone_of_zero (hlatch : s.commitLatch = 0) (t : TxnId) :
    s.beginAlone t = { s.setTxn t ⟨.active, s.time, finishTimeOf s.time, [], []⟩ with
      time := u64 (s.time + 1) } := by
  simp [beginAlone, tryLatch, beginTransaction, setTxn, checkOutTimestamp, hlatch]

/-- Only the counter and the contexts have changed. -/
theorem afterBegins_eq (hi : s.Init) (n : Nat) :
    afterBegins s n = { s with
      time := u64 n
      txns := fun t => if t < n then ⟨.active, u64 t, finishTimeOf (u64 t), [], []⟩
        else ⟨.idle, 0, 0, [], []⟩ } := by
  obtain ⟨htime, hlatch, htxns, -, -⟩ := hi
  induction n with
  | zero =>
      have : (fun _ => ⟨.idle, 0, 0, [], []⟩) = s.txns := (funext htxns).symm
      have ht : 0 = s.time := htime.symm
      simp only [afterBegins, u64, Nat.zero_mod, Nat.not_lt_zero, if_false, this]
      rw [ht]
  | succ n ih =>
      rw [afterBegins, beginAlone_of_zero (by rw [ih]; exact hlatch), ih]
      simp only [setTxn, u64, Nat.mod_add_mod, Db.mk.injEq, and_self, and_true, true_and]
      funext t
      by_cases ht : t = n
      · simp [ht]
      · have hlt : t < n + 1 ↔ t < n :=
          ⟨fun h => Nat.lt_of_le_of_ne (Nat.le_of_lt_succ h) ht, Nat.lt_succ_of_lt⟩
        simp [ht, hlt]

theorem afterBegins_reachable (hi : s.Init) (n : Nat) :
    txnSystem.Reachable (afterBegins s n) := by
  induction n with
  | zero => exact ⟨s, hi, .refl⟩
  | succ n ih =>
      have hidle : ((afterBegins s n).txns n).ctl = .idle := by simp [afterBegins_eq hi]
      refine ih.steps (.tail (.single (a := .begin n) trivial (if_pos hidle))
        (a := .spin n) trivial ?_)
      exact if_pos (by simp)

theorem handedOut_afterBegins (hi : s.Init) {n t : Nat} (h : t < n) :
    (afterBegins s n).handedOut (t, false) = some (u64 t) := by
  simp [afterBegins_eq hi, handedOut, h]

end AfterBegins

/-- The counter is 64 bits wide: after `2 ^ 64` transactions the next one
begins with the start time of the first. -/
theorem timestamps_repeat : ¬ ∀ (memory : UndoMemory) (x : WithUndo Db),
    (txnHost.withUndo memory).ReachableBy (txnHost.CommitsWhole memory TSys.Always) x →
      x.state.TimestampsDistinct := by
  intro h
  obtain ⟨n, hn⟩ : ∃ n, n = 2 ^ 64 + 1 := ⟨_, rfl⟩
  have h0 := handedOut_afterBegins empty_init (n := n) (t := 0) (by omega)
  have h1 := handedOut_afterBegins empty_init (n := n) (t := 2 ^ 64) (by omega)
  have hrepeat : u64 (2 ^ 64) = u64 0 := Nat.mod_self _
  rw [hrepeat] at h1
  obtain ⟨calls, hr, -⟩ := txnHost.exists_reachable (afterBegins_reachable empty_init n)
  have := h _ _ hr _ _ _ h0 h1
  simp at this

end Db

end Db7
