import Db7.Access.SnapshotStore

/-!
# Reading and writing in the store

What the snapshot-isolation store says of a transaction is what its calls find:

* **reads** (`tables_refine_store`): `SelectIntoChunk` answers `NotVisible` for a tuple of which
  its transaction reads nothing, and otherwise fills the chunk with what it reads;
* **writes** (`no_lost_update`): a write finds on the page what its transaction reads, and what it
  has written nobody else commits;
* **two reads** (`repeatable_read`) agree, unless the transaction has written the tuple in between.
-/

namespace Db7

open Lib Function

namespace History

/-! ## Tuples from before the run -/

/-- The tuples that an insert of the run has made are those that were not there before it. -/
structure Born (h : History) : Prop where
  grows : ∀ tbl pid, h.initial.count tbl pid ≤ h.db.count tbl pid
  new : ∀ e ∈ h.events, e.change.isInsert = true →
    h.initial.count e.slot.tbl e.slot.pid ≤ e.slot.idx
  inserted : ∀ x : Slot, h.initial.count x.tbl x.pid ≤ x.idx → x.idx < h.db.count x.tbl x.pid →
    ∃ e ∈ h.eventsOf x, e.change.isInsert = true

theorem Born.of_same {h h' : History} (hb : Born h) (hevents : h'.events = h.events)
    (hinitial : h'.initial = h.initial) (hcount : h'.db.count = h.db.count) : Born h' := by
  refine ⟨?_, ?_, ?_⟩ <;> simp only [eventsOf, hevents, hinitial, hcount]
  · exact hb.grows
  · exact hb.new
  · exact hb.inserted

theorem born_step {h h' : History} {a : TableAction} (hb : Born h) (hs : Stepped h a h') :
    Born h' := by
  cases hs with
  | begin ht => exact hb.of_same rfl rfl (by unfold Db.beginAlone Db.tryLatch; split <;> rfl)
  | commit ht => exact hb.of_same rfl rfl rfl
  | @insert t tbl pid chunk ht =>
      have hle := Db.count_le_insertTuple h.db t tbl pid chunk
      refine ⟨fun a b => Nat.le_trans (hb.grows a b) (hle a b), fun e he hins => ?_,
        fun x hx hlt => ?_⟩
      · rcases List.mem_cons.mp he with rfl | he
        · exact hb.grows tbl pid
        · exact hb.new e he hins
      · rw [eventsOf_cons (h := h) _ rfl]
        by_cases hslot : (⟨tbl, pid, h.db.count tbl pid⟩ : Slot) = x
        · exact ⟨_, by rw [if_pos hslot]; exact List.mem_cons_self, rfl⟩
        · rw [if_neg hslot]
          refine hb.inserted x hx ?_
          -- only the count of that page has changed, and by the one tuple
          have hcount : (h.insert t tbl pid chunk).db.count x.tbl x.pid =
              if x.tbl = tbl ∧ x.pid = pid then h.db.count tbl pid + 1
                else h.db.count x.tbl x.pid := by
            by_cases htbl : x.tbl = tbl
            · by_cases hpid : x.pid = pid <;> simp [History.insert, Db.insertTuple, htbl, hpid]
            · simp [History.insert, Db.insertTuple, htbl]
          rw [hcount] at hlt
          split at hlt
          · rename_i hpage
            have hne : x.idx ≠ h.db.count tbl pid := by
              rintro hidx
              obtain ⟨tbl', pid', idx⟩ := x
              obtain ⟨rfl, rfl⟩ := hpage
              exact hslot (congrArg (Slot.mk _ _) hidx.symm)
            rw [hpage.1, hpage.2]
            omega
          · exact hlt
  | @blocked t op slot ht halloc hblocked =>
      exact hb.of_same rfl rfl (by rw [Db.tableWrite, if_pos hblocked]; rfl)
  | @write t op slot ht halloc hblocked =>
      have hcount : (h.db.tableWrite t op slot).count = h.db.count := by
        rw [Db.tableWrite, if_neg (by simp [hblocked])]
        rfl
      refine ⟨fun a b => ?_, fun e he hins => ?_, fun x hx hlt => ?_⟩
      · show _ ≤ (h.db.tableWrite t op slot).count a b
        rw [hcount]
        exact hb.grows a b
      · rcases List.mem_cons.mp he with rfl | he
        · cases op <;> simp [WriteOp.change, Change.isInsert] at hins
        · exact hb.new e he hins
      · obtain ⟨e, he, hins⟩ := hb.inserted x hx (by rw [← hcount]; exact hlt)
        refine ⟨e, ?_, hins⟩
        rw [eventsOf_cons (h := h) _ rfl]
        split
        · exact List.mem_cons_of_mem _ he
        · exact he

theorem born_reachable {C : History → TableAction → Prop} {h : History}
    (hr : tableSystem.ReachableBy C h) : Born h := by
  refine hr.invariant ?_ fun h a h' hb _ hs => born_step hb (stepped_of_step hs)
  rintro h ⟨-, hevents, hinitial, -⟩
  refine ⟨fun _ _ => by rw [hinitial], by simp [hevents], fun x hx hlt => ?_⟩
  rw [hinitial] at hx
  omega

/-! ## Reads -/

/-- The newest call that gives the column a value, else what was there before the run. -/
theorem cell_eq_assigned {h : History} {slot : Slot} {col : ColOid} (es : List Event) :
    h.cell slot col es = ((es.findSome? fun e => e.change.assigned (h.db.schema slot.tbl) col).getD
      (h.initial.rows slot ((h.db.schema slot.tbl).position col))) := by
  induction es with
  | nil => rfl
  | cons e rest ih =>
      cases hc : e.change with
      | inserted c row => simp [cell, hc, Change.assigned, Change.update, Change.insert]
      | updated c => cases hget : c.get col <;> simp [cell, hc, ih, Change.assigned, Change.update,
          Change.insert, hget]
      | deleted => simp [cell, hc, ih, Change.assigned, Change.update, Change.insert]

section Reader

variable {h : History} (hr : tableSystem.ReachableBy (HandsOutBelow signBit) h) {t : TxnId}
  (ht : (h.db.txns t).ctl = .active) {slot : Slot}

include hr ht

theorem view_read (col : ColOid) :
    (h.view t).read (slot, col) = (h.assigned (h.inSnapshot t) (slot, col)).or
      (h.storedValue (slot, col)) := by
  have hown : (h.eventsOf slot).Pairwise fun a b =>
      decide (b.ptr.owner = t) = true → decide (a.ptr.owner = t) = true :=
    (pairwise_above hr slot).imp fun ha hb => by
      simpa using own_of_above hr ht ha (by simpa using hb)
  have hsplit : h.assigned (h.inSnapshot t) (slot, col) =
      (h.assigned (fun u => u = t) (slot, col)).or (h.assigned (h.committedBefore t) (slot, col)) :=
    (findSome?_own _ hown).trans Option.orElse_eq_or
  rw [hsplit, Option.or_assoc]
  rfl

/-- A tuple in the snapshot reads as the calls of the snapshot have left it. -/
theorem view_read_visible (halloc : slot.idx < h.db.count slot.tbl slot.pid)
    (hvis : h.insertVisible t slot = true) (col : ColOid) : (h.view t).read (slot, col) =
      some (h.cell slot col ((h.eventsOf slot).dropWhile fun e =>
        !h.inSnapshot t e.ptr.owner)) := by
  rw [view_read hr ht, cell_eq_assigned, findSome?_dropWhile (fun e => h.inSnapshot t e.ptr.owner) _
    (pairwise_inSnapshot hr slot)]
  show (h.assigned (h.inSnapshot t) (slot, col)).or _ =
    some ((h.assigned (h.inSnapshot t) (slot, col)).getD _)
  cases hval : h.assigned (h.inSnapshot t) (slot, col) with
  | some v => rfl
  | none =>
      -- an insert would have given the column a value
      by_cases hold : slot.idx < h.initial.count slot.tbl slot.pid
      · exact if_pos hold
      · obtain ⟨e, he, hins⟩ := (born_reachable hr).inserted slot (Nat.le_of_not_lt hold) halloc
        have hsee := List.all_eq_true.mp hvis e he
        have hnone := List.findSome?_eq_none_iff.mp hval e he
        cases hc : e.change with
        | inserted c row =>
            simp only [hc, Change.isInsert, Bool.not_true, Bool.false_or] at hsee
            simp [hsee, hc, Change.assigned, Change.update, Change.insert] at hnone
        | updated c => simp [hc, Change.isInsert] at hins
        | deleted => simp [hc, Change.isInsert] at hins

/-- A tuple whose insert is not in the snapshot reads as nothing. -/
theorem view_read_invisible (hvis : h.insertVisible t slot = false) (col : ColOid) :
    (h.view t).read (slot, col) = none := by
  obtain ⟨e, he, hins, hunseen⟩ : ∃ e ∈ h.eventsOf slot, e.change.isInsert = true ∧
      h.inSnapshot t e.ptr.owner = false := by
    simpa [insertVisible] using hvis
  -- the insert is the oldest call, so no call is in the snapshot
  have hall : ∀ x ∈ h.eventsOf slot, h.inSnapshot t x.ptr.owner = false := by
    intro x hx
    by_contra hsee
    have hlast := (historyInv_reachable hr).insertLast slot
    obtain ⟨above, below, hof⟩ := List.append_of_mem he
    have hnil : below = [] := by
      by_contra hne
      obtain ⟨y, hy⟩ := List.exists_mem_of_ne_nil below hne
      rw [hof] at hlast
      have hfirst := (List.pairwise_cons.mp (List.pairwise_append.mp hlast).2.1).1 y hy
      exact absurd (hins.symm.trans hfirst) (by simp)
    subst hnil
    have hbelow := pairwise_inSnapshot hr (t := t) slot
    rw [hof] at hbelow hx
    rcases List.mem_append.mp hx with hx | hx
    · have hin :=
        (List.pairwise_append.mp hbelow).2.2 x hx e List.mem_cons_self (by simpa using hsee)
      exact absurd (hunseen.symm.trans hin) (by simp)
    · exact hsee (List.mem_singleton.mp hx ▸ hunseen)
  have hassigned : h.assigned (h.inSnapshot t) (slot, col) = none :=
    List.findSome?_eq_none_iff.mpr fun x hx => if_neg (by simp [hall x hx])
  have hstored : h.storedValue (slot, col) = none := by
    obtain ⟨hmem, rfl⟩ := mem_of_mem_eventsOf he
    exact if_neg (Nat.not_lt.mpr ((born_reachable hr).new e hmem hins))
  rw [view_read hr ht, hassigned, hstored]
  rfl

end Reader

/-- What `SelectIntoChunk` answers for a transaction that reads `read`. -/
structure Reads (h : History) (t : TxnId) (read : Cell → Option Value) (slot : Slot)
    (chunk : DataChunk) : Prop where
  hidden : (h.db.selectIntoChunk (h.db.txns t) slot chunk).1 = .notVisible → ∀ col,
    read (slot, col) = none
  shown : (h.db.selectIntoChunk (h.db.txns t) slot chunk).1 ≠ .notVisible → ∀ col, ∃ v,
    read (slot, col) = some v ∧
    (col ∈ chunk.getColumnIds → (h.db.selectIntoChunk (h.db.txns t) slot chunk).2.get col = some v)

theorem reads_of_active {h : History} (hr : tableSystem.ReachableBy Regular h) {t : TxnId}
    (ht : (h.db.txns t).ctl = .active) {slot : Slot}
    (halloc : slot.idx < h.db.count slot.tbl slot.pid) {chunk : DataChunk}
    (hchunk : ∀ col ∈ chunk.getColumnIds, col ∈ (h.db.schema slot.tbl).columns) :
    h.Reads t (h.view t).read slot chunk := by
  have hr' : tableSystem.ReachableBy (HandsOutBelow signBit) h := hr.mono fun _ _ hc => hc.1
  cases hvis : h.insertVisible t slot with
  | true =>
      refine ⟨fun hhid => ?_, fun hseen col => ⟨_, view_read_visible hr' ht halloc hvis col,
        fun hcol => ?_⟩⟩
      · rw [selectIntoChunk_status hr' ht, if_pos hvis] at hhid
        exact absurd hhid (by unfold rowStatus; split <;> simp)
      · exact selectIntoChunk_get hr' ht (valueInv_reachable hr) hseen hcol (hchunk col hcol)
  | false =>
      refine ⟨fun _ col => view_read_invisible hr' ht hvis col, fun hseen => ?_⟩
      rw [selectIntoChunk_status hr' ht, if_neg (by simp [hvis])] at hseen
      exact absurd rfl hseen

/-- **The tables are a snapshot-isolation store.** Where every `Commit` visits all of its records,
every state of a run is one of the store, every call does there what it is there, and a transaction
is shown what it reads there. -/
theorem tables_refine_store {memory : UndoMemory} {x : WithUndo History}
    (hr : (tableHost.withUndo memory).ReachableBy (tableHost.CommitsWhole memory Regular) x) :
    Snapshot.Reached Prod.fst x.state.store ∧
      (∀ a x', tableHost.CommitsWhole memory Regular x a →
        (tableHost.withUndo memory).step x a = some x' →
        x.state.Follows a x'.state) ∧
      ∀ t v, x.state.store.views t = some v → ∀ slot chunk,
        slot.idx < x.state.db.count slot.tbl slot.pid →
        (∀ col ∈ chunk.getColumnIds, col ∈ (x.state.db.schema slot.tbl).columns) →
        x.state.Reads t v.read slot chunk := by
  obtain ⟨hreach, hmatches⟩ := TxnHost.reachable_of_commitsWhole hr
  have hbelow : tableSystem.ReachableBy (HandsOutBelow signBit) x.state :=
    hreach.mono fun _ _ hc => hc.1
  refine ⟨store_reached hbelow, fun a x' hc hs => ?_, fun t v hv slot chunk halloc hchunk => ?_⟩
  · exact store_step hbelow hc.1.1 (TxnHost.step_of_commitsWhole hmatches hc hs).1
  · obtain ⟨ht, rfl⟩ := store_views.mp hv
    exact reads_of_active hreach ht halloc hchunk

/-- Transaction 1 reads what was committed when it began, and not what is on the page. -/
theorem tables_refine_store_updateTwice :
    ∃ x : WithUndo History, (tableHost.withUndo .zeroed).ReachableBy
      (tableHost.CommitsWhole .zeroed Regular) x ∧
      Snapshot.Reached Prod.fst x.state.store ∧
        x.state.Reads 1 (x.state.view 1).read Db.firstSlot [(7, [])] ∧
      (x.state.view 1).read (Db.firstSlot, 7) = some [1] ∧
        x.state.db.rows Db.firstSlot 0 = [2] := by
  let h := (tableSystem.exec Regular ⟨stored, [], stored⟩ updateTwice).get (by decide)
  have hs : tableSystem.exec Regular ⟨stored, [], stored⟩ updateTwice = some h :=
    (Option.some_get _).symm
  have hactive : (h.db.txns 1).ctl = .active := rfl
  have halloc : Db.firstSlot.idx < h.db.count Db.firstSlot.tbl Db.firstSlot.pid := by decide
  have hchunk : ∀ col ∈ DataChunk.getColumnIds [(7, [])],
      col ∈ (h.db.schema Db.firstSlot.tbl).columns := by
    decide
  have hread : (h.view 1).read (Db.firstSlot, 7) = some [1] := by decide
  have hrow : h.db.rows Db.firstSlot 0 = [2] := by decide
  obtain ⟨calls, hr, -⟩ :=
    tableHost.exists_reachable ⟨_, ⟨stored_init, rfl, rfl, fun _ _ => rfl⟩, .of_exec _ hs⟩
  obtain ⟨hreached, -, hreads⟩ := tables_refine_store hr
  exact ⟨⟨h, calls⟩, hr, hreached, hreads 1 (h.view 1) (store_active hactive) _ _ halloc hchunk,
    hread, hrow⟩

/-! ## No lost update, and repeatable reads -/

/-- A write that is not turned away finds on the page what its transaction reads. -/
theorem row_eq_read {h : History} (hr : tableSystem.ReachableBy Regular h) {t : TxnId}
    (ht : (h.db.txns t).ctl = .active) {op : WriteOp} {slot : Slot}
    (halloc : slot.idx < h.db.count slot.tbl slot.pid)
    (hb : h.db.blocked (h.db.txns t) slot (h.db.versions slot).head? op = false) {col : ColOid}
    (hcol : col ∈ (h.db.schema slot.tbl).columns) :
    (h.view t).read (slot, col) = some (h.db.rows slot ((h.db.schema slot.tbl).position col)) := by
  have hr' : tableSystem.ReachableBy (HandsOutBelow signBit) h := hr.mono fun _ _ hc => hc.1
  have hs : h.step (.write t op slot) = some (h.writeLogged t op slot) := by
    simp [step, ht, halloc, History.write, hb]
  have hschema : (h.db.tableWrite t op slot).schema = h.db.schema := by
    rw [Db.tableWrite, if_neg (by simp [hb])]
    rfl
  have hkept := txns_write h.db t op slot
  have hl : h.Logged ⟨⟨t, (h.db.txns t).undo.length⟩, slot, op.change⟩ (h.writeLogged t op slot) :=
    { schema := hschema
      events := rfl
      initial := rfl
      ctl := fun u => (hkept u).1
      start := fun u => (hkept u).2
      active := ht }
  -- the chain would not have let the new version in above a call that is not in the snapshot
  have hall : ∀ e ∈ h.eventsOf slot, h.inSnapshot t e.ptr.owner = true := by
    intro e he
    by_cases hne : e.ptr.owner = t
    · simp [inSnapshot, hne]
    · have hbefore :=
        hl.committedBefore_below
          (hr'.steps (.single (a := .write t op slot) handsOutBelow_write hs)) he hne
      exact (Bool.or_eq_true _ _).mpr (.inr hbefore)
  have hvis : h.insertVisible t slot = true := List.all_eq_true.mpr fun e he => by simp [hall e he]
  rw [view_read_visible hr' ht halloc hvis, (valueInv_reachable hr).rows slot col hcol]
  cases hof : h.eventsOf slot with
  | nil => rfl
  | cons e rest => rw [List.dropWhile_cons_of_neg (by simp [hall e (hof ▸ List.mem_cons_self)])]

/-- **No update is lost.** While a transaction is under way, nobody else changes the committed
values of the tuples that it has written; and every write that is let through finds on the page what
the transaction reads. -/
theorem no_lost_update {h : History} (hr : tableSystem.ReachableBy Regular h) {t : TxnId}
    (ht : (h.db.txns t).ctl = .active) :
    (∀ slot ∈ (h.view t).claimed, ∀ col, h.store.committed (slot, col) =
      (h.view t).snapshot (slot, col)) ∧
      ∀ op slot, slot.idx < h.db.count slot.tbl slot.pid →
        h.db.blocked (h.db.txns t) slot (h.db.versions slot).head? op = false →
        ∀ col ∈ (h.db.schema slot.tbl).columns,
          (h.view t).read (slot, col) = some
            (h.db.rows slot ((h.db.schema slot.tbl).position col)) := by
  have hr' : tableSystem.ReachableBy (HandsOutBelow signBit) h := hr.mono fun _ _ hc => hc.1
  refine ⟨fun slot hslot col => ?_, fun op slot halloc hb col hcol =>
    row_eq_read hr ht halloc hb hcol⟩
  exact (store_reached hr').inv.committed_eq (store_active ht) hslot

/-- Transaction 2 has written over what transaction 0 has committed. -/
theorem no_lost_update_updateTwice :
    ∃ h : History, tableSystem.exec Regular ⟨stored, [], stored⟩ updateTwice = some h ∧
      h.store.committed (Db.firstSlot, 7) = (h.view 2).snapshot (Db.firstSlot, 7) ∧
      (h.view 2).read (Db.firstSlot, 7) = some (h.db.rows Db.firstSlot 0) ∧
      h.store.committed (Db.firstSlot, 7) = some [1] := by
  let h := (tableSystem.exec Regular ⟨stored, [], stored⟩ updateTwice).get (by decide)
  have hs : tableSystem.exec Regular ⟨stored, [], stored⟩ updateTwice = some h :=
    (Option.some_get _).symm
  obtain ⟨hkept, hfound⟩ :=
    no_lost_update ⟨_, ⟨stored_init, rfl, rfl, fun _ _ => rfl⟩, .of_exec _ hs⟩ (t := 2) rfl
  refine ⟨h, hs, hkept Db.firstSlot ⟨⟨⟨2, 0⟩, Db.firstSlot, .updated [(7, [2])]⟩,
    List.mem_cons_self, rfl⟩ 7, ?_, by decide⟩
  exact hfound (.update [(7, [3])]) Db.firstSlot (by decide) (by decide) 7 (by decide)

/-- `t` neither commits nor writes the tuple. -/
def LeavesTuple (t : TxnId) (slot : Slot) : TableAction → Prop
  | .commit u => u ≠ t
  | .write u _ x => ¬ (u = t ∧ x = slot)
  | .begin _ | .insert _ _ _ _ => True

instance (t : TxnId) (slot : Slot) : (a : TableAction) → Decidable (LeavesTuple t slot a)
  | .commit u => inferInstanceAs (Decidable (u ≠ t))
  | .write u _ x => inferInstanceAs (Decidable (¬ (u = t ∧ x = slot)))
  | .begin _ => inferInstanceAs (Decidable True)
  | .insert .. => inferInstanceAs (Decidable True)

def Leaves (t : TxnId) (slot : Slot) (h : History) (a : TableAction) : Prop :=
  Regular h a ∧ LeavesTuple t slot a

instance (t : TxnId) (slot : Slot) (h : History) (a : TableAction) :
    Decidable (Leaves t slot h a) :=
  inferInstanceAs (Decidable (_ ∧ _))

theorem leaves_store {h h' : History} {t : TxnId} {slot : Slot} {a : TableAction}
    (hr : tableSystem.ReachableBy (HandsOutBelow signBit) h)
    (halloc : slot.idx < h.db.count slot.tbl slot.pid)
    (hc : Leaves t slot h a) (hs : h.step a = some h') (col : ColOid) :
    h'.store = h.store ∨ Snapshot.Leaves Prod.fst t (slot, col) h.store h'.store := by
  obtain ⟨hregular, hleaves⟩ := hc
  have hstep := store_step hr hregular.1 hs
  cases a with
  | begin u => exact .inr ⟨.begin u, hstep, by simp, by simp⟩
  | commit u =>
      exact .inr ⟨.commit u, hstep, fun heq => hleaves (Snapshot.Act.commit.inj heq), by simp⟩
  | insert u tbl pid chunk =>
      refine .inr ⟨_, hstep, by simp, fun c values hval => ?_⟩
      obtain ⟨-, -, rfl⟩ := Snapshot.Act.write.inj hval
      -- an insert takes a place that was free
      have hne : (⟨tbl, pid, h.db.count tbl pid⟩ : Slot) ≠ slot := by
        rintro rfl
        exact Nat.lt_irrefl _ halloc
      exact if_neg hne
  | write u op slot' =>
      cases hb : h.db.blocked (h.db.txns u) slot' (h.db.versions slot').head? op with
      | true =>
          have hact : h.act (.write u op slot') = none := if_pos hb
          rw [Follows, hact] at hstep
          exact .inl hstep
      | false =>
          have hact : h.act (.write u op slot') = some _ := if_neg (by simp [hb])
          rw [Follows, hact] at hstep
          refine .inr ⟨_, hstep, by simp, fun c values hval => ?_⟩
          obtain ⟨rfl, -, rfl⟩ := Snapshot.Act.write.inj hval
          have hne : slot' ≠ slot := by
            rintro rfl
            exact hleaves ⟨rfl, rfl⟩
          exact if_neg hne

theorem count_le_step {h h' : History} {a : TableAction} (hs : Stepped h a h') (tbl pid : Nat) :
    h.db.count tbl pid ≤ h'.db.count tbl pid := by
  cases hs with
  | begin ht =>
      refine Nat.le_of_eq ?_
      unfold Db.beginAlone Db.tryLatch
      split <;> rfl
  | commit ht => exact Nat.le_refl _
  | insert ht => exact Db.count_le_insertTuple ..
  | blocked ht halloc hb => rw [Db.tableWrite, if_pos hb]; exact Nat.le_refl _
  | write ht halloc hb =>
      show _ ≤ (h.db.tableWrite _ _ _).count tbl pid
      rw [Db.tableWrite, if_neg (by simp [hb])]
      exact Nat.le_refl _

theorem schema_step {h h' : History} {a : TableAction} (hs : Stepped h a h') :
    h'.db.schema = h.db.schema := by
  cases hs with
  | begin ht =>
      unfold Db.beginAlone Db.tryLatch
      split <;> rfl
  | commit ht => rfl
  | insert ht => rfl
  | blocked ht halloc hb =>
      rw [Db.tableWrite, if_pos hb]
      rfl
  | write ht halloc hb =>
      show (h.db.tableWrite _ _ _).schema = _
      rw [Db.tableWrite, if_neg (by simp [hb])]
      rfl

/-- The store along the calls of others, with the tables that stay as they are. -/
theorem leaves_run {h h' : History} {t : TxnId} {slot : Slot}
    (hr : tableSystem.ReachableBy Regular h) (halloc : slot.idx < h.db.count slot.tbl slot.pid)
    (hrun : tableSystem.Steps (Leaves t slot) h h') (col : ColOid) :
    Relation.ReflTransGen (Snapshot.Leaves Prod.fst t (slot, col)) h.store h'.store ∧
      slot.idx < h'.db.count slot.tbl slot.pid ∧ h'.db.schema = h.db.schema := by
  induction hrun with
  | refl => exact ⟨.refl, halloc, rfl⟩
  | @tail h' h'' a hrun hc hs ih =>
      obtain ⟨hstore, halloc', hschema⟩ := ih
      have hr' := (hr.steps (hrun.mono fun _ _ hc => hc.1)).mono fun _ _ hc => hc.1
      have hst := stepped_of_step hs
      refine ⟨?_, Nat.lt_of_lt_of_le halloc' (count_le_step hst ..),
        (schema_step hst).trans hschema⟩
      rcases leaves_store hr' halloc' hc hs col with heq | hleaves
      · exact heq ▸ hstore
      · exact hstore.tail hleaves

/-- **Reads are repeatable.** Two reads of a tuple by one transaction that has not written it in
between agree on whether the tuple is there, and on its columns, whatever the others have called. -/
theorem repeatable_read {h h' : History} (hr : tableSystem.ReachableBy Regular h) {t : TxnId}
    (ht : (h.db.txns t).ctl = .active) {slot : Slot}
    (halloc : slot.idx < h.db.count slot.tbl slot.pid)
    (hrun : tableSystem.Steps (Leaves t slot) h h') {chunk : DataChunk}
    (hchunk : ∀ col ∈ chunk.getColumnIds, col ∈ (h.db.schema slot.tbl).columns) :
    ((h'.db.selectIntoChunk (h'.db.txns t) slot chunk).1 = .notVisible ↔
        (h.db.selectIntoChunk (h.db.txns t) slot chunk).1 = .notVisible) ∧
      ((h.db.selectIntoChunk (h.db.txns t) slot chunk).1 ≠ .notVisible → ∀ col ∈ chunk.getColumnIds,
        (h'.db.selectIntoChunk (h'.db.txns t) slot chunk).2.get col =
          (h.db.selectIntoChunk (h.db.txns t) slot chunk).2.get col) := by
  have hr' : tableSystem.ReachableBy Regular h' := hr.steps (hrun.mono fun _ _ hc => hc.1)
  -- the transaction is still under way, and reads what it has read
  have hsame : ∀ col, (h'.db.txns t).ctl = .active ∧ (h'.view t).read (slot, col) =
      (h.view t).read (slot, col) := by
    intro col
    obtain ⟨v, hv, hread⟩ := Snapshot.read_run (leaves_run hr halloc hrun col).1 (store_active ht)
    obtain ⟨hactive, rfl⟩ := store_views.mp hv
    exact ⟨hactive, hread⟩
  obtain ⟨-, halloc', hschema⟩ := leaves_run hr halloc hrun 0
  have hbefore := reads_of_active hr ht halloc hchunk
  have hafter := reads_of_active hr' (hsame 0).1 halloc' (hschema ▸ hchunk)
  have hiff : ∀ {g : History}, g.Reads t (g.view t).read slot chunk →
      ((g.db.selectIntoChunk (g.db.txns t) slot chunk).1 = .notVisible ↔
        (g.view t).read (slot, 0) = none) := by
    intro g hg
    refine ⟨fun hhid => hg.hidden hhid 0, fun hnone => ?_⟩
    by_contra hseen
    obtain ⟨v, hv, -⟩ := hg.shown hseen 0
    exact absurd (hnone.symm.trans hv) (by simp)
  have hstatus := (hiff hafter).trans ((hsame 0).2 ▸ (hiff hbefore).symm)
  refine ⟨hstatus, fun hseen col hcol => ?_⟩
  obtain ⟨v, hv, hget⟩ := hbefore.shown hseen col
  obtain ⟨v', hv', hget'⟩ := hafter.shown (fun hhid => hseen (hstatus.mp hhid)) col
  rw [hget hcol, hget' hcol, ← hv, ← hv', (hsame col).2]

/-- The state in which transaction 1 reads first. -/
def readerBegins : List TableAction :=
  [.begin 0, .write 0 (.update [(7, [1])]) Db.firstSlot, .commit 0, .begin 1]

/-- Another transaction updates the tuple and commits. -/
def otherCommits : List TableAction :=
  [.begin 2, .write 2 (.update [(7, [2])]) Db.firstSlot, .commit 2]

theorem repeatable_read_otherCommits :
    ∃ h h' : History, tableSystem.exec Regular ⟨stored, [], stored⟩ readerBegins = some h ∧
      tableSystem.exec (Leaves 1 Db.firstSlot) h otherCommits = some h' ∧
      (h'.db.selectIntoChunk (h'.db.txns 1) Db.firstSlot [(7, [])]).2.get 7 =
        (h.db.selectIntoChunk (h.db.txns 1) Db.firstSlot [(7, [])]).2.get 7 ∧
      h'.db.rows Db.firstSlot 0 = [2] := by
  let h := (tableSystem.exec Regular ⟨stored, [], stored⟩ readerBegins).get (by decide)
  have hs : tableSystem.exec Regular ⟨stored, [], stored⟩ readerBegins = some h :=
    (Option.some_get _).symm
  let h' := (tableSystem.exec (Leaves 1 Db.firstSlot) h otherCommits).get (by decide)
  have hs' : tableSystem.exec (Leaves 1 Db.firstSlot) h otherCommits = some h' :=
    (Option.some_get _).symm
  have hrepeat :=
    repeatable_read ⟨_, ⟨stored_init, rfl, rfl, fun _ _ => rfl⟩, .of_exec _ hs⟩ (t := 1) rfl
    (by decide) (.of_exec _ hs') (by decide : ∀ col ∈ DataChunk.getColumnIds [(7, [])],
      col ∈ (h.db.schema 0).columns)
  exact ⟨h, h', hs, hs', hrepeat.2 (by decide) 7 (by decide), by decide⟩

end History

end Db7
