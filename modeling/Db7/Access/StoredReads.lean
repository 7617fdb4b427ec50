import Db7.Access.StoredRuns

/-!
# Snapshot reads from bytes

* **steps** (`step_db`): a step in bytes is one of the transactions, or leaves them as they are;
* **runs** (`orderly_run`): so an orderly run in bytes is an orderly run of the transactions;
* **result** (`stored_reads_snapshot`): `SelectIntoChunk` on the bytes of pages and deltas tells
  what its transaction reads in a snapshot-isolation store.
-/

namespace Db7

open Lib Function

/-- The chunk has distinct columns of its table. -/
theorem PlacedChunk.Of.fits {schema : PageSchema} {c : PlacedChunk} (h : c.Of schema) (m : Mem) :
    (c.contents m).Fits schema.toSchema := by
  refine ⟨c.nodup_contents m, fun id hid => ?_⟩
  rw [c.getColumnIds_contents, c.ids_eq, List.map_map] at hid
  obtain ⟨f, hf, rfl⟩ := List.mem_map.mp hid
  obtain ⟨column, hcolumn, -⟩ := h f hf
  exact (PageSchema.val_of_getColumn hcolumn).1

namespace StoredDb

variable {schemas : Nat → PageSchema} {s s' : StoredDb} {a : StoredAction} {path : Slot → Bool}

/-- What a step in bytes is for the transactions. -/
theorem step_db (h : StoredInv schemas s) (hc : s.Regular schemas a)
    (hstep : s.step schemas a = some s') :
    s'.db = s.db ∨ ∃ b, s.dbAction a = some b ∧ s.db.step b = some s'.db := by
  have hfailed := (storedInv_step h hc hstep).failed
  have hview := view_eq h.shows
  cases a with
  | make n c =>
      simp only [step] at hstep
      split at hstep
      · obtain rfl := Option.some.inj hstep
        exact .inl rfl
      · cases hstep
  | fill n oid value =>
      simp only [step] at hstep
      obtain ⟨c, -, rfl⟩ := Option.map_eq_some_iff.mp hstep
      exact .inl rfl
  | insert t tbl pid n =>
      simp only [step, hview, Option.bind_eq_bind] at hstep
      obtain ⟨c, hplaced, hstep⟩ := Option.bind_eq_some_iff.mp hstep
      obtain ⟨db, hdb, hstep⟩ := Option.bind_eq_some_iff.mp hstep
      obtain rfl := Option.some.inj hstep
      obtain ⟨v, hok⟩ := ok_of_orFail hfailed
      refine .inr ⟨.insert t tbl pid (c.contents s.mem),
        by simp only [dbAction, hplaced, Option.map_some], ?_⟩
      rw [hok]
      exact hdb
  | update t x n delta =>
      simp only [step, hview, Option.bind_eq_bind] at hstep
      split at hstep
      · obtain ⟨c, hplaced, hstep⟩ := Option.bind_eq_some_iff.mp hstep
        obtain ⟨db, hdb, hstep⟩ := Option.bind_eq_some_iff.mp hstep
        obtain rfl := Option.some.inj hstep
        exact .inr ⟨.write t (.update (c.contents s.mem)) x,
          by simp only [dbAction, hplaced, Option.map_some], hdb⟩
      · cases hstep
  | select t x n =>
      simp only [step] at hstep
      split at hstep
      · obtain ⟨c, -, rfl⟩ := Option.map_eq_some_iff.mp hstep
        obtain ⟨v, hok⟩ := ok_of_orFail hfailed
        exact .inl (by rw [hok])
      · cases hstep
  | other b =>
      simp only [step, hview] at hstep
      split at hstep
      · cases hstep
      · obtain ⟨db, hdb, rfl⟩ := Option.map_eq_some_iff.mp hstep
        obtain ⟨v, hok⟩ := ok_of_orFail hfailed
        exact .inr ⟨b, rfl, by rw [hok]; exact hdb⟩

/-- The step of the transactions is orderly. -/
theorem orderly_of_step {b : Action} (h : StoredInv schemas s) (hc : s.Orderly schemas path a)
    (hb : s.dbAction a = some b) (hstep : s.step schemas a = some s') : Db.Orderly path s.db b := by
  obtain ⟨hregular, hpath⟩ := hc
  cases a with
  | make n c => cases hb
  | fill n oid value => cases hb
  | select t x n => cases hb
  | insert t tbl pid n =>
      refine ⟨?_, hpath b hb, ?_⟩
      · obtain ⟨c, -, rfl⟩ := Option.map_eq_some_iff.mp hb
        exact fun hout => by simp [Db.checksOut] at hout
      · obtain ⟨c, hplaced, rfl⟩ := Option.map_eq_some_iff.mp hb
        show (c.contents s.mem).Fits (s.db.schema tbl)
        rw [h.schema]
        exact (hregular.2 c hplaced).fits s.mem
  | update t x n delta =>
      refine ⟨?_, hpath b hb, ?_⟩
      · obtain ⟨c, -, rfl⟩ := Option.map_eq_some_iff.mp hb
        exact fun hout => by simp [Db.checksOut] at hout
      · obtain ⟨c, hplaced, rfl⟩ := Option.map_eq_some_iff.mp hb
        simp only [step] at hstep
        split at hstep
        · rename_i hal
          show (c.contents s.mem).Fits (s.db.schema x.tbl)
          rw [h.schema]
          exact (hregular c hal hplaced).1.fits s.mem
        · cases hstep
  | other b' =>
      obtain rfl := Option.some.inj hb
      refine ⟨hregular, hpath b' rfl, ?_⟩
      simp only [step] at hstep
      split at hstep
      · cases hstep
      · rename_i htakes
        cases b' with
        | insert t tbl pid chunk => exact absurd rfl htakes
        | write t op x =>
            cases op with
            | update chunk => exact absurd rfl htakes
            | delete => trivial
            | deleteRaw => trivial
        | begin t => trivial
        | spin t => trivial
        | commit t => trivial
        | run t => trivial

theorem orderly_run {s₀ : StoredDb} (hinit : s₀.Init schemas)
    (hr : (storedSystem schemas).Steps (Orderly schemas path) s₀ s) :
    StoredInv schemas s ∧ txnSystem.Steps (Db.Orderly path) s₀.db s.db := by
  refine hr.invariant (P := fun s => StoredInv schemas s ∧
    txnSystem.Steps (Db.Orderly path) s₀.db s.db) ?_
    ⟨storedInv_init hinit, .refl⟩
  rintro s a s' ⟨h, hsteps⟩ hc hstep
  refine ⟨storedInv_step h hc.1 hstep, ?_⟩
  rcases step_db h hc.1 hstep with hsame | ⟨b, hb, hdb⟩
  · rw [hsame]
    exact hsteps
  · exact hsteps.tail (orderly_of_step h hc hb hstep) hdb

end StoredDb

/-- What `stored_reads_snapshot` says, where `Commit` walks over the records. -/
theorem told_of_stored {schemas : Nat → PageSchema} {path : Slot → Bool} {s₀ s : StoredDb}
    {t : TxnId} {x : Slot}
    {n : Nat} {c : PlacedChunk} (hinit : s₀.Init schemas) (hclear : s₀.db.InitClear)
    (hr : (storedSystem schemas).Steps (StoredDb.Orderly schemas path) s₀ s)
    (hactive : (s.db.txns t).ctl = .active)
    (hfree : s.db.latch x.tbl x.pid = none) (hc : s.placed (.caller n) = some c)
    (hof : c.Of (schemas x.tbl))
    (halloc : x.idx < (PaxLayout.headerCount (s.page x.tbl x.pid)).toNat) :
    ∃ status m k v, s.selectIntoChunk schemas t x c.address = .ok (status, m) ∧ c.Keeps s.mem m ∧
      tableSystem.ReachableBy History.Regular k ∧ k.db = s.db.settled ∧
        Snapshot.Reached Prod.fst k.store ∧
      k.store.views t = some v ∧ Told v.read x (c.contents s.mem) status (c.contents m) := by
  obtain ⟨h, hsteps⟩ := StoredDb.orderly_run hinit hr
  rw [h.shows.count] at halloc
  obtain ⟨m, hread, hbecomes⟩ :=
    StoredDb.selectIntoChunk_eq h t hc hof (Nat.lt_of_lt_of_le halloc (h.room x.tbl x.pid))
  obtain ⟨k, v, hk, hdb, hreached, hv, htold⟩ := Db.select_told hclear hsteps hactive hfree halloc
    (by rw [h.schema]; exact (hof.fits s.mem).2)
  rw [← hbecomes.contents] at htold
  exact ⟨_, m, k, v, hread, hbecomes.keeps, hk, hdb, hreached, hv, htold⟩

namespace StoredDb

/-! ## With the undo buffers of the transactions -/

section Host

variable (schemas : Nat → PageSchema)

/-- The step of a transaction that is made; an exception in `ChunkUtils` leaves the transactions as
they are. -/
def txnAction (s : StoredDb) : StoredAction → Option Action
  | .insert t tbl pid n => (s.placed (.caller n)).bind fun c =>
      match ChunkUtils.insertBulk (schemas tbl) (s.page tbl pid) s.mem c.address 1 with
      | .ok _ => some (.insert t tbl pid (c.contents s.mem))
      | .error _ => none
  | .other a =>
      match s.writeBytes schemas a with
      | .ok _ => some a
      | .error _ => none
  | a => s.dbAction a

/-- The transaction whose records `RestampVersions` visits in the step. -/
def restamps (s : StoredDb) : StoredAction → Option TxnId
  | .other a => s.db.restamps a
  | .make _ _ | .fill _ _ _ | .insert _ _ _ _ | .update _ _ _ _ | .select _ _ _ => none

/-- The steps, where the iterator of a transaction in `RestampVersions` stops at these of its
records. -/
def stepThrough (visited : TxnId → Option (List Nat)) (s : StoredDb) :
    StoredAction → Option StoredDb
  | .other a =>
      if a.takesChunk then none
      else ((s.view schemas).stepThrough visited a).map fun db =>
        s.orFail (s.writeBytes schemas a) fun written =>
          { s with db := db, page := written.1, mem := written.2 }
  | a => s.step schemas a

variable {schemas} {s s' : StoredDb} {a : StoredAction}

theorem stepThrough_all {visited : TxnId → Option (List Nat)}
    (hall : ∀ t, s.restamps a = some t → visited t = some (List.range (s.db.recordCount t))) :
    s.stepThrough schemas visited a = s.step schemas a := by
  cases a with
  | other a =>
      unfold stepThrough
      dsimp only
      rw [Db.stepThrough_all (s := s.view schemas) hall]
      rfl
  | make | fill | insert | update | select => rfl

theorem recordCount_step (hstep : s.step schemas a = some s') :
    s'.db.recordCount = Action.recordsAfter s.db.recordCount (s.txnAction schemas a) := by
  cases a with
  | make n c =>
      simp only [step] at hstep
      split at hstep
      · obtain rfl := Option.some.inj hstep
        rfl
      · cases hstep
  | fill n oid value =>
      simp only [step] at hstep
      obtain ⟨c, -, rfl⟩ := Option.map_eq_some_iff.mp hstep
      rfl
  | insert t tbl pid n =>
      simp only [step, Option.bind_eq_bind] at hstep
      obtain ⟨c, hplaced, hstep⟩ := Option.bind_eq_some_iff.mp hstep
      obtain ⟨db, hdb, hstep⟩ := Option.bind_eq_some_iff.mp hstep
      obtain rfl := Option.some.inj hstep
      simp only [txnAction, hplaced, Option.bind_some]
      cases hbytes : ChunkUtils.insertBulk (schemas tbl) (s.page tbl pid) s.mem c.address 1 with
      | ok inserted => exact (Db.stepped_of_step hdb).recordCount
      | error e => rfl
  | update t x n delta =>
      simp only [step, Option.bind_eq_bind] at hstep
      split at hstep
      · obtain ⟨c, hplaced, hstep⟩ := Option.bind_eq_some_iff.mp hstep
        obtain ⟨db, hdb, hstep⟩ := Option.bind_eq_some_iff.mp hstep
        obtain rfl := Option.some.inj hstep
        simp only [txnAction, dbAction, hplaced, Option.map_some]
        exact (Db.stepped_of_step hdb).recordCount
      · cases hstep
  | select t x n =>
      simp only [step] at hstep
      split at hstep
      · obtain ⟨c, -, rfl⟩ := Option.map_eq_some_iff.mp hstep
        cases s.selectIntoChunk schemas t x c.address with
        | ok answer => rfl
        | error e => rfl
      · cases hstep
  | other b =>
      simp only [step] at hstep
      split at hstep
      · cases hstep
      · obtain ⟨db, hdb, rfl⟩ := Option.map_eq_some_iff.mp hstep
        simp only [txnAction]
        cases s.writeBytes schemas b with
        | ok written => exact (Db.stepped_of_step hdb).recordCount
        | error e => rfl

end Host

end StoredDb

/-- Transactions on pages in bytes, with their undo buffers. -/
def storedHost (schemas : Nat → PageSchema) : TxnHost StoredDb StoredAction where
  sys := storedSystem schemas
  db s := s.db
  action := StoredDb.txnAction schemas
  restamps := StoredDb.restamps
  stepThrough := StoredDb.stepThrough schemas
  through_all _ _ _ := StoredDb.stepThrough_all
  step_records _ _ _ := StoredDb.recordCount_step

/-- **From bytes to snapshots.** After any orderly run in which every `Commit` visits all of its
records, `SelectIntoChunk` on the bytes ends without an exception, writes only to the fields of its
chunk, and leaves in them what its transaction reads in a snapshot-isolation store that whole
operations have led to. -/
theorem stored_reads_snapshot {memory : UndoMemory} {schemas : Nat → PageSchema}
    {path : Slot → Bool}
    {y₀ y : WithUndo StoredDb} {t : TxnId} {x : Slot} {n : Nat} {c : PlacedChunk}
    (hinit : ((storedHost schemas).withUndo memory).init y₀) (hclear : y₀.state.db.InitClear)
    (hr : ((storedHost schemas).withUndo memory).Steps
      ((storedHost schemas).CommitsWhole memory (StoredDb.Orderly schemas path)) y₀ y)
    (hactive : (y.state.db.txns t).ctl = .active) (hfree : y.state.db.latch x.tbl x.pid = none)
    (hc : y.state.placed (.caller n) = some c) (hof : c.Of (schemas x.tbl))
    (halloc : x.idx < (PaxLayout.headerCount (y.state.page x.tbl x.pid)).toNat) :
    ∃ status m k v, y.state.selectIntoChunk schemas t x c.address = .ok (status, m) ∧
      c.Keeps y.state.mem m ∧
      tableSystem.ReachableBy History.Regular k ∧ k.db = y.state.db.settled ∧
        Snapshot.Reached Prod.fst k.store ∧
      k.store.views t = some v ∧ Told v.read x (c.contents y.state.mem) status (c.contents m) :=
  told_of_stored hinit.1 hclear (TxnHost.steps_of_commitsWhole hinit.2 hr).1 hactive
    hfree hc hof halloc

/-- Transaction 0 is told the old value of a row that another transaction has updated; its `Commit`
has gone through the iterator. -/
theorem stored_reads_snapshot_merged :
    ∃ (y : WithUndo StoredDb) (m : Mem) (v : Snapshot.View History.Cell Value Slot),
    ((storedHost fun _ => PageSchema.integers).withUndo .zeroed).Steps
      ((storedHost fun _ => PageSchema.integers).CommitsWhole .zeroed
        (StoredDb.Orderly (fun _ => PageSchema.integers) fun _ => true))
      ⟨StoredDb.twoRows, fun _ => []⟩ y ∧
    (y.state.db.txns 1).ctl = .committed 2 ∧ y.state.db.rows ⟨0, 1, 0⟩ 0 = [9, 9, 9, 9] ∧
    y.state.selectIntoChunk (fun _ => PageSchema.integers) 0 ⟨0, 1, 0⟩ 192 = .ok (.visible, m) ∧
    (PlacedChunk.integer.moved 192 (by decide)).contents m = [(1, [0, 0, 0, 0])] ∧
    v.read (⟨0, 1, 0⟩, 1) = some [0, 0, 0, 0] := by
  obtain ⟨s, hsteps, hdb, hplaced⟩ := StoredDb.written_steps
  obtain ⟨hrow, -, hcommitted⟩ := StoredDb.written_rows
  have hclear : StoredDb.twoRows.db.InitClear := by
    refine ⟨StoredDb.init_twoRows.db, fun x _ => ?_⟩
    have hbyte : PaxLayout.bitmapByte (UInt32.ofNat x.idx) ≠ 0 :=
      Nat.ne_of_gt (Nat.add_pos_left (by decide) _)
    simp [StoredDb.twoRows, PaxLayout.isDeleted, hbyte, byte]
  have hnone : (storedHost fun _ => PageSchema.integers).Matches StoredDb.twoRows fun _ => [] :=
    fun _ => rfl
  obtain ⟨calls, hrun, -⟩ := TxnHost.exists_withUndo hnone hsteps
  have hactive : (StoredDb.written.txns 0).ctl = .active := by decide +kernel
  have hfree : StoredDb.written.latch 0 1 = none := by decide +kernel
  have hcount : StoredDb.written.count 0 1 = 3 := by decide +kernel
  have hinv := (StoredDb.storedInv_init StoredDb.init_twoRows).steps hsteps
  have halloc : 0 < (PaxLayout.headerCount (s.page 0 1)).toNat := by
    rw [hinv.shows.count, hdb, hcount]
    decide
  have hinit : ((storedHost fun _ => PageSchema.integers).withUndo .zeroed).init
      ⟨StoredDb.twoRows, fun _ => []⟩ := ⟨StoredDb.init_twoRows, hnone⟩
  obtain ⟨status, m, k, v, hread, -, -, -, -, -, htold⟩ :=
    stored_reads_snapshot (t := 0) (x := ⟨0, 1, 0⟩) (n := 1) hinit hclear hrun
      (by rw [hdb, hactive]) (by rw [hdb, hfree]) hplaced PlacedChunk.integer_of halloc
  -- the same read, on the rows
  obtain ⟨m', hread', hbecomes⟩ :=
    StoredDb.selectIntoChunk_eq hinv 0 (x := ⟨0, 1, 0⟩) hplaced PlacedChunk.integer_of
    (by decide)
  obtain ⟨w, hw⟩ : ∃ w, (PlacedChunk.integer.moved 192 (by decide)).contents s.mem = [(1, w)] :=
    ⟨_, rfl⟩
  rw [hdb, hw, StoredDb.written_select] at hread' hbecomes
  obtain ⟨rfl, rfl⟩ := Prod.mk.inj (Except.ok.inj (hread.symm.trans hread'))
  rw [hw, hbecomes.contents] at htold
  refine ⟨⟨s, calls⟩, m, v, hrun, by rw [hdb, hcommitted], by rw [hdb, hrow], hread,
    hbecomes.contents, ?_⟩
  obtain ⟨value, hvalue, hget⟩ := htold.shown (by decide) 1
  rw [hvalue, ← hget (List.mem_singleton.mpr rfl)]
  rfl

end Db7
