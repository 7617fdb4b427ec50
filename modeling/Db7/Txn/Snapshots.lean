import Db7.Txn.Deletes

/-!
# What a transaction under way sees

The snapshot of a transaction are its own writes and those of the transactions that were committed
at or before its start. From the moment that `BeginTransaction` returns on nobody else can come into
it (`snapshots_step`), so the tuples that the transaction sees stay the same while the others run
(`sees_step`).

`HasConflict` about one version of a tuple tells whether its writer is in the snapshot
(`conflicts_eq_false_iff`). Where the writes of a tuple keep to one path, the newest version then
tells whether the tuple is seen (`PathInv.sees_of_head`).
-/

namespace Db7

open Lib Function

namespace Db

/-- `u` is `t`, or was committed at or before the start of `t`. -/
def InSnapshot (s : Db) (t u : TxnId) : Prop :=
  u = t ∨ ∃ c, (s.txns u).ctl = .committed c ∧ c ≤ (s.txns t).start

/-- The tuple was inserted, and not deleted, in the snapshot. -/
def Sees (s : Db) (t : TxnId) (x : Slot) : Prop :=
  (∃ p ∈ s.versions x, s.kind p = some .insert ∧ s.InSnapshot t p.owner) ∧
    ∀ p ∈ s.versions x, s.kind p = some .delete → ¬ s.InSnapshot t p.owner

/-- The snapshots of the transactions under way are complete. -/
def Snapshots (s : Db) : Prop :=
  ∀ t, (s.txns t).running = true → SnapshotInv (s.txns t).start (fun _ => True) s

variable {s s' : Db} {a : Action} {t u : TxnId} {x : Slot} {p : RecPtr}

/-! ## Every step keeps the snapshots -/

theorem snapshots_init (h : s.Init) : Snapshots s := by
  obtain ⟨-, -, htxns, -⟩ := h
  intro t hrun
  simp [htxns, Txn.running] at hrun

theorem snapshots_step {bound : Nat} (hb : bound < 2 ^ 64) (hc : CommitInv bound s)
    (h : Snapshots s)
    (hout : HandsOutBelow bound s a) (hs : s.step a = some s') : Snapshots s' := by
  intro t hrun
  have hst := stepped_of_step hs
  -- a transaction that was under way keeps its start
  have hkeep : (s.txns t).running = true → (s'.txns t).start = (s.txns t).start →
      SnapshotInv (s'.txns t).start (fun _ => True) s' := by
    intro hold hstart
    rw [hstart]
    exact snapshotInv_step hb (h t hold) hout hs
  by_cases hown : t = a.txn
  · subst hown
    rcases hst.kind with ⟨t, rfl, hctl, rfl⟩ | ⟨t, rfl, hctl, rfl⟩ | ⟨t, rfl, hctl, rfl⟩ | ⟨t,
      rfl, hctl, rfl⟩ |
      ⟨t, c, i, rfl, hctl, -, rfl⟩ | ⟨t, c, i, rfl, hctl, -, rfl⟩ | ⟨t, w⟩
    · simp [Action.txn, Txn.running] at hrun
    · -- the spin has read zero
      by_cases hzero : s.commitLatch > 0
      · simp [Action.txn, tryLatch, hzero, Txn.running, hctl] at hrun
      · have hreturn := snapshotInv_return hc hctl hzero
        have hstart : ((s.tryLatch t).txns t).start = (s.txns t).start := by simp [tryLatch, hzero]
        rw [Action.txn, hstart]
        refine snapshotInv_step hb (s := s) ⟨hreturn.start_lt, fun u c hcommit => ?_⟩ hout hs
        exact (hreturn.commits u c hcommit).imp_left fun h => ⟨trivial, h.2⟩
    · simp [Action.txn, Txn.running] at hrun
    · simp [Action.txn, Txn.running] at hrun
    · simp [Action.txn, Txn.running, restampOne] at hrun
    · simp [Action.txn, Txn.running] at hrun
    · by_cases ht : a.txn = t
      · rw [ht] at hkeep ⊢
        exact hkeep w.before w.start
      · rw [w.others _ ht] at hrun hkeep ⊢
        exact hkeep hrun rfl
  · rw [hst.txns_of_ne hown] at hrun hkeep ⊢
    exact hkeep hrun rfl

theorem snapshots_reachable (hr : txnSystem.ReachableBy (HandsOutBelow signBit) s) :
    Snapshots s := by
  have hb : signBit < 2 ^ 64 := by decide
  obtain ⟨s₀, hinit, hrun⟩ := hr
  exact hrun.invariant_of (fun _ _ _ h hc hs => commitInv_step hb h hc hs)
    (fun _ _ _ h hsnap hc hs => snapshots_step hb h hsnap hc hs) (commitInv_init hinit)
      (snapshots_init hinit)

/-! ## The snapshot stays as it is -/

/-- A committed transaction takes no step. -/
theorem Stepped.not_committed (hs : Stepped s a s') (c : Nat) :
    (s.txns a.txn).ctl ≠ .committed c := by
  intro hctl
  cases hs <;> simp_all [Action.txn]

/-- A step that commits its transaction is the release of the commit latch. -/
theorem Stepped.commits (hs : Stepped s a s') {c : Nat}
    (hctl : (s'.txns a.txn).ctl = .committed c) :
    (s.txns a.txn).commitTime = some c := by
  cases hs with
  | @unlock t c' i h _ =>
      obtain rfl : c' = c := by simpa [Action.txn] using hctl
      simp [Action.txn, Txn.commitTime, h]
  | spin h =>
      unfold tryLatch at hctl
      split at hctl <;> simp [Action.txn, h] at hctl
  | check _ =>
      simp only [checkHead] at hctl
      split at hctl <;> simp [Action.txn, setPc] at hctl
  | link _ =>
      unfold Db.link at hctl
      split at hctl <;> simp [Action.txn, setPc] at hctl
  | insert h _ => simp [Action.txn, insertTuple, h] at hctl
  | _ => simp [Action.txn, startWrite, restampOne, applyUpdate, setPc, finishWrite] at hctl

/-- Nobody comes into the snapshot of a transaction under way, or leaves it. -/
theorem inSnapshot_step (h : Snapshots s) (hrun : (s.txns t).running = true) (hs : Stepped s a s')
    (hne : t ≠ a.txn) :
    s'.InSnapshot t u ↔ s.InSnapshot t u := by
  unfold InSnapshot
  rw [hs.txns_of_ne hne]
  by_cases hu : u = a.txn
  · subst hu
    refine or_congr Iff.rfl ⟨?_, ?_⟩
    · rintro ⟨c, hctl, hle⟩
      have hcommit := hs.commits hctl
      rcases (h t hrun).commits _ c hcommit with ⟨-, hold⟩ | hlt
      · exact absurd hold (hs.not_committed c)
      · omega
    · rintro ⟨c, hctl, -⟩
      exact absurd hctl (hs.not_committed c)
  · rw [hs.txns_of_ne hu]

/-- The transaction of a step is in nobody else's snapshot. -/
theorem not_inSnapshot (hs : Stepped s a s') (hne : t ≠ a.txn) : ¬ s.InSnapshot t a.txn := by
  rintro (heq | ⟨c, hctl, -⟩)
  · exact hne heq.symm
  · exact hs.not_committed c hctl

/-- What a transaction under way sees stays as it is while the others run. -/
theorem sees_step (hc : CommitInv signBit s) (hi : ChainInv s) (ht : TupleInv s) (h : Snapshots s)
    (hrun : (s.txns t).running = true) (hs : Stepped s a s') (hne : t ≠ a.txn) :
    s'.Sees t x ↔ s.Sees t x := by
  have hkeep : ∀ p ∈ s.versions x, s'.kind p = s.kind p := fun p hp => hs.kind_eq hc hi hp
  have hsnap : ∀ u, s'.InSnapshot t u ↔ s.InSnapshot t u := fun u => inSnapshot_step h hrun hs hne
  have hstepper := not_inSnapshot hs hne
  -- a version that the step adds is out of the snapshot
  have hnew : ∀ p ∈ s'.versions x, s.InSnapshot t p.owner → p ∈ s.versions x := by
    intro p hp hin
    rcases hs.chain_cases x with hv | ⟨-, hv, -⟩ | ⟨op, rec, -, hv, -⟩ <;> rw [hv] at hp
    · exact hp
    · obtain rfl := List.mem_singleton.mp hp
      exact absurd hin hstepper
    · rcases List.mem_cons.mp hp with rfl | hp
      · exact absurd hin hstepper
      · exact hp
  have hold : ∀ p ∈ s.versions x, p ∈ s'.versions x := fun p hp => hs.mem_versions ht hp
  constructor
  · rintro ⟨⟨p, hp, hk, hin⟩, hdel⟩
    rw [hsnap] at hin
    have hp' := hnew p hp hin
    refine ⟨⟨p, hp', (hkeep p hp') ▸ hk, hin⟩, fun q hq hkq hinq => ?_⟩
    exact hdel q (hold q hq) ((hkeep q hq).trans hkq) ((hsnap _).mpr hinq)
  · rintro ⟨⟨p, hp, hk, hin⟩, hdel⟩
    refine ⟨⟨p, hold p hp, (hkeep p hp).trans hk, (hsnap _).mpr hin⟩, fun q hq hkq hinq => ?_⟩
    rw [hsnap] at hinq
    have hq' := hnew q hq hinq
    exact hdel q hq' ((hkeep q hq') ▸ hkq) hinq

/-! ## What the newest version tells -/

/-- The two ways to say that a version is in the snapshot. -/
theorem inSnapshot_iff (hc : CommitInv signBit s) (h : Snapshots s)
    (hrun : (s.txns t).running = true)
    (hp : s.Valid p) : p.owner = t ∨ s.CommittedBy (s.txns t).start p ↔ s.InSnapshot t p.owner := by
  refine or_congr Iff.rfl ⟨fun ⟨hcommitted, hle⟩ => ?_, fun ⟨c, hctl, hle⟩ => ?_⟩
  · have hcommit := commitTime_of_isCommitted hc (begun_of_valid hc hp) hcommitted
    rcases (h t hrun).commits _ _ hcommit with ⟨-, hctl⟩ | hlt
    · exact ⟨_, hctl, hle⟩
    · exact absurd hle (Nat.not_le.mpr hlt)
  · have hstamp : s.stamp p = c := by simp [stamp, Txn.stampAt, hctl]
    have hlt :=
      lt_of_lt_of_le (hc.below (p.owner, true) c (by simp [handedOut, Txn.commitTime, hctl]))
        hc.time_le
    rw [CommittedBy, hstamp]
    exact ⟨isCommitted_of_lt hlt, hle⟩

/-- `HasConflict` about a version. -/
theorem hasConflict_eq_false_iff (hc : CommitInv signBit s) (h : Snapshots s)
    (hrun : (s.txns t).running = true)
    (hp : s.Valid p) : s.hasConflict (s.txns t) (some p) = false ↔ s.InSnapshot t p.owner := by
  have hbegun : (s.txns t).ctl ≠ .idle := (Txn.ctl_of_running hrun).1
  rw [← inSnapshot_iff hc h hrun hp]
  refine ⟨own_or_committedBy hc hbegun hp, fun hin => ?_⟩
  obtain ⟨r, hr⟩ := exists_record hp
  simp only [hasConflict, Option.bind_some, hr, record_timestamp hc hr, hasConflictTs_eq_false]
  rcases hin with rfl | ⟨hcommitted, hle⟩
  · have hstamp : s.stamp p = (s.txns p.owner).finish := Txn.stampAt_of_running hrun _
    have hstart : (s.txns p.owner).start < signBit :=
      lt_of_lt_of_le (hc.below (p.owner, false) _ (by simp [handedOut, hbegun])) hc.time_le
    rw [hstamp, (hc.ok _).finish hbegun, isCommitted_finishTimeOf hstart]
    simp
  · simp [hcommitted, hle]

/-- What was committed before a transaction of the snapshot started is in the snapshot. -/
theorem InSnapshot.trans (hc : CommitInv signBit s) (h : Snapshots s)
    (hrun : (s.txns t).running = true)
    (hin : s.InSnapshot t u) (hp : s.Valid p) (hcommitted : s.CommittedBy (s.txns u).start p) :
    s.InSnapshot t p.owner := by
  refine (inSnapshot_iff hc h hrun hp).mp (.inr ⟨hcommitted.1, ?_⟩)
  rcases hin with rfl | ⟨c, hctl, hle⟩
  · exact hcommitted.2
  · have hbegan := (hc.ok u).commit c (by simp [Txn.commitTime, hctl])
    have hle' := hcommitted.2
    omega

/-- With a version in the snapshot all that it stands on are. -/
theorem inSnapshot_below (hc : CommitInv signBit s) (hi : ChainInv s) (h : Snapshots s)
    (hrun : (s.txns t).running = true) (hp : p ∈ (s.versions x).head?)
    (hin : s.InSnapshot t p.owner) :
    ∀ q ∈ s.versions x, s.InSnapshot t q.owner := by
  intro q hq
  obtain ⟨rest, hchain⟩ : ∃ rest, s.versions x = p :: rest := List.head?_eq_some_iff.mp hp
  have hmem : p ∈ s.versions x := List.mem_of_mem_head? hp
  have hord := hi.ordered x
  rw [hchain] at hord hq
  rcases List.mem_cons.mp hq with rfl | hq
  · exact hin
  · have habove := (List.pairwise_cons.mp hord).1 q hq
    unfold Above at habove
    split at habove
    · rename_i howner
      exact howner ▸ hin
    · -- the writer of `q` was committed before that of `p` started
      exact hin.trans hc h hrun (hi.valid x q (by rw [hchain]; exact List.mem_cons_of_mem _ hq))
        habove

/-- Of two tuples of which one is out of the way of the other a transaction sees one at most. -/
theorem Removed.not_sees (hc : CommitInv signBit s) (hi : ChainInv s) (ht : TupleInv s)
    (h : Snapshots s)
    (hrun : (s.txns t).running = true) {y : Slot} (hx : s.Removed u x) (hy : s.InsertedBy u y)
    (hsees : s.Sees t y) :
    ¬ s.Sees t x := by
  obtain ⟨⟨p, hp, hkind, hin⟩, -⟩ := hsees
  obtain rfl : p.owner = u := InsertedBy.owner ht ⟨p, hp, rfl, hkind⟩ hy
  obtain ⟨d, hd, hdel, hby⟩ := hx
  refine fun hsees => hsees.2 d hd hdel ?_
  rcases hby with howner | hcommitted
  · exact howner ▸ hin
  · exact hin.trans hc h hrun (hi.valid x d hd) hcommitted

variable {path : Slot → Bool}

/-- A newest version in the snapshot that is no delete. -/
theorem PathInv.sees_of_head (hpath : PathInv path s) (hc : CommitInv signBit s) (hi : ChainInv s)
    (h : Snapshots s) (hrun : (s.txns t).running = true) (hp : p ∈ (s.versions x).head?)
    (hin : s.InSnapshot t p.owner)
    (hkind : s.kind p ≠ some .delete) {u : TxnId} (hins : s.InsertedBy u x) : s.Sees t x := by
  have hbelow := inSnapshot_below hc hi h hrun hp hin
  obtain ⟨rest, hchain⟩ : ∃ rest, s.versions x = p :: rest := List.head?_eq_some_iff.mp hp
  refine ⟨?_, fun q hq hdel => ?_⟩
  · obtain ⟨r, hr, -, hk⟩ := hins
    exact ⟨r, hr, hk, hbelow r hr⟩
  · rw [hchain] at hq
    rcases List.mem_cons.mp hq with rfl | hq
    · exact absurd hdel hkind
    · exact absurd hdel (hpath.last x q (by rw [hchain]; exact hq))

end Db

end Db7
