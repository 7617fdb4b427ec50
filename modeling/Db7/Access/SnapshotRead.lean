import Db7.Access.Visibility
import Db7.Lib.Lists

/-!
# What a reader sees in a tuple

The page holds the newest bytes of a row; `SelectIntoChunk` copies them into
the chunk and merges the before-images of the versions that are too new for
the reader.

* **before-images** (`ValueInv.deltas`): the delta of an update holds, for each
  of its columns, the value that the calls before it had left there;
* **the walk** (`selectWalk_chunk`): merging the deltas of the newest calls
  leaves the values that the remaining ones had left;
* **the snapshot** (`cell_snapshot`): what remains are exactly the calls of the
  reader's snapshot.
-/

namespace Db7

open Lib Function

namespace Change

/-- The value an update gives a column. -/
def update (col : ColOid) : Change → Option Value
  | .updated chunk => chunk.get col
  | .inserted _ _ | .deleted => none

/-- The value an insert gives a column; a column outside the chunk keeps the
bytes of the page. -/
def insert (schema : Schema) (col : ColOid) : Change → Option Value
  | .inserted chunk before => some ((chunk.get col).getD (before (schema.position col)))
  | .updated _ | .deleted => none

end Change

namespace History

/-- The last update of a column among the calls of some transactions. -/
def lastUpdate (h : History) (slot : Slot) (col : ColOid) (who : TxnId → Bool) : Option Value :=
  (h.eventsOf slot).findSome? fun e => if who e.ptr.owner then e.change.update col else none

/-- The inserted value of a column, or the stored one of a tuple that was there
before the run. -/
def insertedValue (h : History) (slot : Slot) (col : ColOid) : Value :=
  ((h.eventsOf slot).findSome? fun e => e.change.insert (h.db.schema slot.tbl) col).getD
    (h.initial.rows slot ((h.db.schema slot.tbl).position col))

/-- Committed at or before the start of `t`. -/
def committedBefore (h : History) (t u : TxnId) : Bool :=
  (h.db.txns u).commitTime.any fun c => c ≤ (h.db.txns t).start

/-- What a snapshot read has to return for a column: the reader's own last
update, else the last one committed at or before its start, else the inserted
value. -/
def snapshotValue (h : History) (t : TxnId) (slot : Slot) (col : ColOid) : Value :=
  ((h.lastUpdate slot col fun u => u = t).orElse fun _ =>
    h.lastUpdate slot col (h.committedBefore t)).getD (h.insertedValue slot col)

/-- The chunks of inserts and updates hold distinct columns of the schema. -/
def Fits (h : History) (a : TableAction) : Prop := h.db.Fits a.start

instance (h : History) (a : TableAction) : Decidable (h.Fits a) :=
  inferInstanceAs (Decidable (h.db.Fits a.start))

/-- The value of a column after the calls `es`, the newest first. -/
def cell (h : History) (slot : Slot) (col : ColOid) : List Event → Value
  | [] => h.initial.rows slot ((h.db.schema slot.tbl).position col)
  | e :: rest =>
      match e.change with
      | .inserted chunk before =>
          (chunk.get col).getD (before ((h.db.schema slot.tbl).position col))
      | .updated chunk => (chunk.get col).getD (cell h slot col rest)
      | .deleted => cell h slot col rest

/-- The delta of an update with the calls `rest` before it. -/
def DeltaOk (h : History) (slot : Slot) (e : Event) (rest : List Event) : Prop :=
  ∀ chunk, e.change = .updated chunk → chunk.Fits (h.db.schema slot.tbl) ∧
    ∃ r, h.db.record e.ptr = some r ∧ r.delta.getColumnIds = chunk.getColumnIds ∧
      ∀ col ∈ chunk.getColumnIds, r.delta.get col = some (h.cell slot col rest)

def DeltasOk (h : History) (slot : Slot) : List Event → Prop
  | [] => True
  | e :: rest => h.DeltaOk slot e rest ∧ DeltasOk h slot rest

/-- The pages and the before-images. -/
structure ValueInv (h : History) : Prop where
  rows : ∀ x, ∀ col ∈ (h.db.schema x.tbl).columns,
    h.db.rows x ((h.db.schema x.tbl).position col) = h.cell x col (h.eventsOf x)
  deltas : ∀ x, h.DeltasOk x (h.eventsOf x)

/-! ## The invariant -/

theorem cell_congr {h h' : History} (hschema : h'.db.schema = h.db.schema)
    (hinitial : h'.initial = h.initial) (slot : Slot) (col : ColOid) (es : List Event) :
    h'.cell slot col es = h.cell slot col es := by
  induction es with
  | nil => simp [cell, hschema, hinitial]
  | cons e rest ih => cases hc : e.change <;> simp [cell, hc, ih, hschema]

theorem DeltasOk.kept {h : History} (h' : History) (hschema : h'.db.schema = h.db.schema)
    (hinitial : h'.initial = h.initial)
    (hrecords : ∀ p r, h.db.record p = some r →
      ∃ r', h'.db.record p = some r' ∧ r'.type = r.type ∧ r'.delta = r.delta)
    {slot : Slot} {es : List Event} (hd : h.DeltasOk slot es) : h'.DeltasOk slot es := by
  induction es with
  | nil => trivial
  | cons e rest ih =>
      refine ⟨fun chunk hc => ?_, ih hd.2⟩
      obtain ⟨hf, r, hr, hids, hget⟩ := hd.1 chunk hc
      obtain ⟨r', hr', -, hdelta⟩ := hrecords _ r hr
      refine ⟨hschema ▸ hf, r', hr', hdelta ▸ hids, fun col hcol => ?_⟩
      rw [hdelta, cell_congr hschema hinitial]
      exact hget col hcol

/-- A step that changes the row and the history of one tuple at most. -/
theorem ValueInv.of_step {h h' : History} (hv : ValueInv h) (slot : Slot)
    (hschema : h'.db.schema = h.db.schema) (hinitial : h'.initial = h.initial)
    (hrecords : ∀ p r, h.db.record p = some r →
      ∃ r', h'.db.record p = some r' ∧ r'.type = r.type ∧ r'.delta = r.delta)
    (hrows : ∀ x, x ≠ slot → h'.db.rows x = h.db.rows x)
    (hevents : ∀ x, x ≠ slot → h'.eventsOf x = h.eventsOf x)
    (hrow : ∀ col ∈ (h.db.schema slot.tbl).columns,
      h'.db.rows slot ((h.db.schema slot.tbl).position col) =
        h.cell slot col (h'.eventsOf slot))
    (hdeltas : h'.DeltasOk slot (h'.eventsOf slot)) : ValueInv h' := by
  refine ⟨fun x col hcol => ?_, fun x => ?_⟩
  · rw [cell_congr hschema hinitial]
    rw [hschema] at hcol ⊢
    by_cases hx : x = slot
    · subst hx; exact hrow col hcol
    · rw [hrows x hx, hevents x hx]; exact hv.rows x col hcol
  · by_cases hx : x = slot
    · subst hx; exact hdeltas
    · rw [hevents x hx]; exact (hv.deltas x).kept h' hschema hinitial hrecords

theorem ValueInv.of_same {h h' : History} (hv : ValueInv h)
    (hschema : h'.db.schema = h.db.schema) (hinitial : h'.initial = h.initial)
    (hrecords : ∀ p r, h.db.record p = some r →
      ∃ r', h'.db.record p = some r' ∧ r'.type = r.type ∧ r'.delta = r.delta)
    (hrows : h'.db.rows = h.db.rows) (hevents : h'.events = h.events) : ValueInv h' := by
  have hof : ∀ x, h'.eventsOf x = h.eventsOf x := fun x => by simp only [eventsOf, hevents]
  refine ⟨fun x col hcol => ?_, fun x => ?_⟩
  · rw [hrows, hof, cell_congr hschema hinitial, hschema]
    exact hv.rows x col (hschema ▸ hcol)
  · rw [hof]; exact (hv.deltas x).kept h' hschema hinitial hrecords

theorem valueInv_step {bound : Nat} {h h' : History} {a : TableAction}
    (hc : Db.CommitInv bound h.db) (hi : HistoryInv h) (hv : ValueInv h) (hfits : h.Fits a)
    (hs : Stepped h a h') : ValueInv h' := by
  have hrecords : ∀ p r, h.db.record p = some r →
      ∃ r', h'.db.record p = some r' ∧ r'.type = r.type ∧ r'.delta = r.delta :=
    fun p r hr => record_kept (idleEmpty_of_commitInv hc) hs hr
  cases hs with
  | begin hctl =>
      refine hv.of_same ?_ rfl hrecords ?_ rfl <;>
        (unfold Db.beginAlone Db.tryLatch; split <;> rfl)
  | commit hctl => exact hv.of_same rfl rfl hrecords rfl rfl
  | @insert t tbl pid chunk hctl =>
      have hof := eventsOf_cons (h := h) (h.insert t tbl pid chunk) rfl
      refine hv.of_step ⟨tbl, pid, h.db.count tbl pid⟩ rfl rfl hrecords
        (fun x hx => by simp [History.insert, Db.insertTuple, hx])
        (fun x hx => by rw [hof, if_neg (Ne.symm hx)]) (fun col hcol => ?_) ?_
      · rw [hof, if_pos rfl]
        simp only [cell, History.insert, Db.insertTuple, update_self]
        exact insertRow_apply _ hcol
      · rw [hof, if_pos rfl, hi.eventsOf_nil le_rfl]
        exact ⟨by simp [DeltaOk], trivial⟩
  | @blocked t op slot hctl halloc hb =>
      have hwrite : h.db.tableWrite t op slot = _ := if_pos hb
      exact hv.of_same (by rw [hwrite]; rfl) rfl hrecords (by rw [hwrite]; rfl) rfl
  | @write t op slot hctl halloc hb =>
      have hwrite : h.db.tableWrite t op slot = _ := if_neg (by simp [hb])
      have hschema : (h.db.tableWrite t op slot).schema = h.db.schema := by rw [hwrite]; rfl
      have hof := eventsOf_cons (h := h) (h.writeLogged t op slot) rfl
      refine hv.of_step slot hschema rfl hrecords
        (fun x hx => by simp [writeLogged, hwrite, hx])
        (fun x hx => by rw [hof, if_neg (Ne.symm hx)]) (fun col hcol => ?_) ?_
      · rw [hof, if_pos rfl]
        simp only [writeLogged, hwrite, update_self]
        cases op with
        | update chunk =>
            simp only [cell, WriteOp.change]
            rw [updateSingle_row hfits _ hcol, hv.rows slot col hcol]
        | delete => exact hv.rows slot col hcol
        | deleteRaw => exact hv.rows slot col hcol
      · rw [hof, if_pos rfl]
        refine ⟨fun chunk hchunk => ?_,
          (hv.deltas slot).kept (h.writeLogged t op slot) hschema rfl hrecords⟩
        cases op with
        | delete => simp [WriteOp.change] at hchunk
        | deleteRaw => simp [WriteOp.change] at hchunk
        | update chunk' =>
            obtain rfl : chunk' = chunk := by simpa [WriteOp.change] using hchunk
            refine ⟨by simp only [writeLogged, hschema]; exact hfits, _,
              Db.record_tableWrite hb, by simp [Db.writePage], fun col hcol => ?_⟩
            rw [@cell_congr h (h.writeLogged t _ slot) hschema rfl,
              ← hv.rows slot col (hfits.2 col hcol)]
            exact updateSingle_delta hfits _ hcol

theorem valueInv_init {h : History} (hinit : h.Init) : ValueInv h := by
  obtain ⟨-, hevents, hinitial, -⟩ := hinit
  have hof : ∀ x, h.eventsOf x = [] := fun x => by simp [eventsOf, hevents]
  exact ⟨fun x col _ => by simp [hof, cell, hinitial], fun x => by simp [hof, DeltasOk]⟩

/-- Runs in which timestamps stay below the bit that marks uncommitted versions
and the chunks fit their tables. -/
def Regular (h : History) (a : TableAction) : Prop := h.HandsOutBelow signBit a ∧ h.Fits a

instance (h : History) (a : TableAction) : Decidable (h.Regular a) :=
  inferInstanceAs (Decidable (_ ∧ _))

theorem valueInv_reachable {h : History} (hr : tableSystem.ReachableBy Regular h) :
    ValueInv h := by
  obtain ⟨h₀, hinit, hrun⟩ := hr
  induction hrun with
  | refl => exact valueInv_init hinit
  | tail hrun hc hs ih =>
      have hr' := TSys.ReachableBy.mono (fun _ _ h => h.1) ⟨h₀, hinit, hrun⟩
      exact valueInv_step (commitInv hr') (historyInv_reachable hr') ih hc.2 (stepped_of_step hs)

/-! ## The walk -/

theorem cell_updated {h : History} {slot : Slot} {e : Event} {rest : List Event}
    {chunk : DataChunk} (hc : e.change = .updated chunk) (col : ColOid) :
    h.cell slot col (e :: rest) = (chunk.get col).getD (h.cell slot col rest) := by
  simp [cell, hc]

/-- Merging the delta of the newest call takes the chunk back to before it. -/
theorem get_merge_delta {h : History} {slot : Slot} {e : Event} {rest : List Event}
    {r : UndoRecord} {chunk : DataChunk} (hd : h.DeltaOk slot e rest) {c : DataChunk}
    (hc : e.change = .updated c) (hr : h.db.record e.ptr = some r) {col : ColOid}
    (hcol : col ∈ chunk.getColumnIds)
    (hcell : chunk.get col = some (h.cell slot col (e :: rest))) :
    (merge chunk r.delta).get col = some (h.cell slot col rest) := by
  obtain ⟨hf, r', hr', hids, hget⟩ := hd c hc
  obtain rfl : r = r' := Option.some.inj (hr.symm.trans hr')
  rw [get_merge hcol (hids ▸ hf.1)]
  by_cases hmem : col ∈ c.getColumnIds
  · simp [hget col hmem]
  · rw [DataChunk.get_eq_none (hids ▸ hmem), hcell, cell_updated hc,
      DataChunk.get_eq_none hmem]
    rfl

/-- The walk undoes the calls outside the snapshot, unless it meets an insert
among them. -/
theorem selectWalk_chunk {h : History} {slot : Slot} {start : Nat} {isDeleted : Bool}
    (sees : Event → Bool) {es : List Event} {rs : List UndoRecord}
    (hm : List.Forall₂ h.Matches es rs) (hd : h.DeltasOk slot es)
    (hnewer : ∀ e ∈ es, isNewerThan (h.db.stamp e.ptr) start = !sees e)
    (hstamp : ∀ e r, h.Matches e r → r.timestamp = h.db.stamp e.ptr) {chunk : DataChunk}
    (hseen : (selectWalk start isDeleted rs chunk).1 ≠ .notVisible) {col : ColOid}
    (hcol : col ∈ chunk.getColumnIds) (hcell : chunk.get col = some (h.cell slot col es)) :
    (selectWalk start isDeleted rs chunk).2.get col =
      some (h.cell slot col (es.dropWhile fun e => !sees e)) := by
  induction hm generalizing chunk with
  | nil => exact hcell
  | @cons e r es rs her _ ih =>
      have hn := hnewer e List.mem_cons_self
      have ih := fun c => @ih hd.2 (fun e' he' => hnewer e' (List.mem_cons_of_mem _ he')) c
      rw [← hstamp e r her] at hn
      cases hs : sees e with
      | true => simpa [selectWalk, hn, hs] using hcell
      | false =>
          have ht := her.2
          cases hc : e.change with
          | inserted c row => simp [selectWalk, hn, hs, hc, ht, Change.type] at hseen
          | updated c =>
              simp only [selectWalk, hn, hs, hc, ht, Change.type, Bool.not_false, if_true,
                List.dropWhile_cons] at hseen ⊢
              exact ih _ hseen (by simpa using hcol) (get_merge_delta hd.1 hc her.1 hcol hcell)
          | deleted =>
              simp only [selectWalk, hn, hs, hc, ht, Change.type, Bool.not_false, if_true,
                List.dropWhile_cons] at hseen ⊢
              exact ih _ hseen hcol (by simpa [cell, hc] using hcell)

/-! ## What remains is the snapshot -/

/-- The last update wins, else the insert. -/
theorem cell_eq_findSome? {h : History} {slot : Slot} {col : ColOid} {es : List Event}
    (hlast : es.Pairwise fun e _ => e.change.isInsert = false) :
    h.cell slot col es = ((es.findSome? fun e => e.change.update col).getD
      ((es.findSome? fun e => e.change.insert (h.db.schema slot.tbl) col).getD
        (h.initial.rows slot ((h.db.schema slot.tbl).position col)))) := by
  induction es with
  | nil => rfl
  | cons e rest ih =>
      obtain ⟨hfirst, hrest⟩ := List.pairwise_cons.mp hlast
      have ih := ih hrest
      cases hc : e.change with
      | inserted c row =>
          have hnil : rest = [] := by
            by_contra hne
            obtain ⟨e', he'⟩ := List.exists_mem_of_ne_nil rest hne
            simpa [hc, Change.isInsert] using hfirst e' he'
          subst hnil
          simp [cell, hc, Change.update, Change.insert]
      | updated c =>
          rw [cell_updated hc, ih]
          cases hget : c.get col <;> simp [hc, Change.update, Change.insert, hget]
      | deleted => simp [cell, hc, ih, Change.update, Change.insert]

/-- The calls that `sees` keeps are a tail of the list. -/
theorem findSome?_dropWhile {α : Type} (sees : Event → Bool) (f : Event → Option α)
    {es : List Event}
    (hbelow : es.Pairwise fun a b => sees a = true → sees b = true) :
    (es.dropWhile fun e => !sees e).findSome? f =
      es.findSome? fun e => if sees e then f e else none := by
  induction es with
  | nil => rfl
  | cons e rest ih =>
      obtain ⟨hfirst, hrest⟩ := List.pairwise_cons.mp hbelow
      cases hs : sees e with
      | false => simp [hs, ih hrest]
      | true =>
          rw [List.dropWhile_cons_of_neg (by simp [hs])]
          refine findSome?_congr_mem fun e' he' => ?_
          rcases List.mem_cons.mp he' with rfl | he'
          · simp [hs]
          · simp [hfirst e' he' hs]

/-- Own calls come before the others, so the last one in the snapshot is the
last own one, if there is any. -/
theorem findSome?_own {α : Type} {own other : Event → Bool} (f : Event → Option α)
    {es : List Event} (habove : es.Pairwise fun a b => own b = true → own a = true) :
    (es.findSome? fun e => if own e || other e then f e else none) =
      (es.findSome? fun e => if own e then f e else none).orElse fun _ =>
        es.findSome? fun e => if other e then f e else none := by
  induction es with
  | nil => rfl
  | cons e rest ih =>
      obtain ⟨hfirst, hrest⟩ := List.pairwise_cons.mp habove
      cases ho : own e with
      | true =>
          cases hf : f e with
          | none => simpa [List.findSome?_cons, ho, hf] using ih hrest
          | some v => simp [List.findSome?_cons, ho, hf]
      | false =>
          have hnone : ∀ e' ∈ e :: rest, own e' = false := by
            intro e' he'
            rcases List.mem_cons.mp he' with rfl | he'
            · exact ho
            · by_contra hown
              simp [hfirst e' he' (by simpa using hown)] at ho
          have hown : ((e :: rest).findSome? fun e => if own e then f e else none) = none :=
            List.findSome?_eq_none_iff.mpr fun e' he' => by simp [hnone e' he']
          rw [hown, Option.orElse_eq_or, Option.none_or]
          exact findSome?_congr_mem fun e' he' => by rw [hnone e' he', Bool.false_or]

section Reader

variable {h : History} (hr : tableSystem.ReachableBy (HandsOutBelow signBit) h) {t : TxnId}
  (ht : (h.db.txns t).ctl = .active)

include hr ht

/-- The calls left by the walk give the columns their snapshot values. -/
theorem cell_snapshot {slot : Slot} (hvis : h.insertVisible t slot = true) (col : ColOid) :
    h.cell slot col ((h.eventsOf slot).dropWhile fun e => !h.inSnapshot t e.ptr.owner) =
      h.snapshotValue t slot col := by
  have hi := historyInv_reachable hr
  have hbelow := pairwise_inSnapshot hr (t := t) slot
  have hown : (h.eventsOf slot).Pairwise fun a b =>
      decide (b.ptr.owner = t) = true → decide (a.ptr.owner = t) = true :=
    (pairwise_above hr slot).imp fun ha hb => by
      simpa using own_of_above hr ht ha (by simpa using hb)
  have hsees : ∀ e : Event, h.inSnapshot t e.ptr.owner =
      (decide (e.ptr.owner = t) || h.committedBefore t e.ptr.owner) := fun e => rfl
  rw [cell_eq_findSome? ((hi.insertLast slot).sublist (List.dropWhile_sublist _)),
    findSome?_dropWhile (fun e => h.inSnapshot t e.ptr.owner) _ hbelow,
    findSome?_dropWhile (fun e => h.inSnapshot t e.ptr.owner) _ hbelow]
  simp only [hsees]
  rw [findSome?_own (fun e => e.change.update col) hown]
  have hinsert : ((h.eventsOf slot).findSome? fun e =>
      if decide (e.ptr.owner = t) || h.committedBefore t e.ptr.owner then
        e.change.insert (h.db.schema slot.tbl) col else none) =
      (h.eventsOf slot).findSome? fun e => e.change.insert (h.db.schema slot.tbl) col := by
    refine findSome?_congr_mem fun e he => ?_
    have hsee := List.all_eq_true.mp hvis e he
    rw [← hsees]
    cases hc : e.change with
    | inserted c row => simp [hc, Change.isInsert] at hsee; simp [hsee]
    | updated c => simp [Change.insert]
    | deleted => simp [Change.insert]
  rw [hinsert]
  rfl

/-- What is in the chunk after a read that did not answer `NotVisible`. -/
theorem selectIntoChunk_get (hv : ValueInv h) {slot : Slot} {chunk : DataChunk}
    (hseen : (h.db.selectIntoChunk (h.db.txns t) slot chunk).1 ≠ .notVisible) {col : ColOid}
    (hcol : col ∈ chunk.getColumnIds) (hmem : col ∈ (h.db.schema slot.tbl).columns) :
    (h.db.selectIntoChunk (h.db.txns t) slot chunk).2.get col =
      some (h.cell slot col
        ((h.eventsOf slot).dropWhile fun e => !h.inSnapshot t e.ptr.owner)) := by
  have hi := historyInv_reachable hr
  have hm := forall₂_chain hi slot
  have hread : (readSingleIntoChunk (h.db.schema slot.tbl) chunk (h.db.rows slot)).get col =
      some (h.cell slot col (h.eventsOf slot)) := by
    rw [get_readSingleIntoChunk hcol, hv.rows slot col hmem]
  simp only [Db.selectIntoChunk] at hseen ⊢
  cases hof : h.eventsOf slot with
  | nil =>
      rw [hof, List.forall₂_nil_left_iff] at hm
      rw [hof] at hread
      simpa [hm] using hread
  | cons e es =>
      rw [hof] at hm
      obtain ⟨r, rs, her, hrs, hchain⟩ := List.forall₂_cons_left_iff.mp hm
      have hvalid := @valid_of_mem h hr slot e (by simp [hof])
      have hown := stamp_eq_finish_iff hr ht hvalid
      rw [hof] at hread
      simp only [hchain, timestamp_of_matches hr her, hown] at hseen ⊢
      split
      · rename_i ho
        rw [List.dropWhile_cons_of_neg (by simp [inSnapshot, ho])]
        exact hread
      · rename_i hne
        rw [if_neg hne] at hseen
        exact selectWalk_chunk (fun e => h.inSnapshot t e.ptr.owner) (hchain ▸ hm)
          (hof ▸ hv.deltas slot)
          (fun e' he' => isNewerThan_iff hr ht (valid_of_mem hr (hof ▸ he'))
            (foreign_of_head hr ht hof hne e' (hof ▸ he')))
          (fun e r hm => timestamp_of_matches hr hm) hseen (by simpa using hcol) hread

end Reader

/-- What `selectIntoChunk_visible` says, where `Commit` walks over the records. -/
theorem get_eq_snapshotValue {h : History} (hr : tableSystem.ReachableBy Regular h)
    {t : TxnId} (ht : (h.db.txns t).ctl = .active) {slot : Slot} {chunk : DataChunk}
    (hchunk : ∀ col ∈ chunk.getColumnIds, col ∈ (h.db.schema slot.tbl).columns)
    (hvisible : (h.db.selectIntoChunk (h.db.txns t) slot chunk).1 = .visible) :
    ∀ col ∈ chunk.getColumnIds,
      (h.db.selectIntoChunk (h.db.txns t) slot chunk).2.get col =
        some (h.snapshotValue t slot col) := by
  intro col hcol
  have hr' : tableSystem.ReachableBy (HandsOutBelow signBit) h := hr.mono fun _ _ hc => hc.1
  have hvis : h.insertVisible t slot = true := by
    by_contra hnot
    rw [selectIntoChunk_status hr' ht, if_neg hnot] at hvisible
    simp at hvisible
  rw [selectIntoChunk_get hr' ht (valueInv_reachable hr) (by simp [hvisible]) hcol
    (hchunk col hcol), cell_snapshot hr' ht hvis]

/-- **A visible tuple shows the snapshot.** Where every `Commit` visits all of its
records and `SelectIntoChunk` reports `Visible`, every column of the chunk holds the
reader's own last update of it, else the last one committed at or before its start,
else the inserted value. -/
theorem selectIntoChunk_visible {memory : UndoMemory} {x : WithUndo History}
    (hr : (tableHost.withUndo memory).ReachableBy (tableHost.CommitsWhole memory Regular) x)
    {t : TxnId} (ht : (x.state.db.txns t).ctl = .active) {slot : Slot} {chunk : DataChunk}
    (hchunk : ∀ col ∈ chunk.getColumnIds, col ∈ (x.state.db.schema slot.tbl).columns)
    (hvisible : (x.state.db.selectIntoChunk (x.state.db.txns t) slot chunk).1 = .visible) :
    ∀ col ∈ chunk.getColumnIds,
      (x.state.db.selectIntoChunk (x.state.db.txns t) slot chunk).2.get col =
        some (x.state.snapshotValue t slot col) :=
  get_eq_snapshotValue (TxnHost.reachable_of_commitsWhole hr).1 ht hchunk hvisible

/-- One stored tuple with one column. -/
def stored : Db := { Db.stored with schema := fun _ => ⟨[7], by decide⟩ }

theorem stored_init : stored.Init :=
  ⟨rfl, rfl, fun _ => rfl, fun _ => rfl, fun _ _ => rfl⟩

/-- Transaction 0 updates the tuple and commits, transaction 1 begins, and
transaction 2 updates the tuple again. -/
def updateTwice : List TableAction :=
  [.begin 0, .write 0 (.update [(7, [1])]) Db.firstSlot, .commit 0, .begin 1, .begin 2,
    .write 2 (.update [(7, [2])]) Db.firstSlot]

theorem selectIntoChunk_visible_updateTwice :
    ∃ x : WithUndo History, (tableHost.withUndo .zeroed).ReachableBy
      (tableHost.CommitsWhole .zeroed Regular) x ∧
      (x.state.db.selectIntoChunk (x.state.db.txns 1) Db.firstSlot [(7, [])]).2.get 7 =
        some (x.state.snapshotValue 1 Db.firstSlot 7) ∧
      x.state.snapshotValue 1 Db.firstSlot 7 = [1] ∧ x.state.db.rows Db.firstSlot 0 = [2] := by
  let h := (tableSystem.exec Regular ⟨stored, [], stored⟩ updateTwice).get (by decide)
  have hs : tableSystem.exec Regular ⟨stored, [], stored⟩ updateTwice = some h :=
    (Option.some_get _).symm
  have hvalue : h.snapshotValue 1 Db.firstSlot 7 = [1] := by decide
  have hrow : h.db.rows Db.firstSlot 0 = [2] := by decide
  have hchunk : ∀ col ∈ DataChunk.getColumnIds [(7, [])],
      col ∈ (h.db.schema Db.firstSlot.tbl).columns := by
    decide
  have hvisible : (h.db.selectIntoChunk (h.db.txns 1) Db.firstSlot [(7, [])]).1 =
      .visible := by decide
  obtain ⟨calls, hr, -⟩ :=
    tableHost.exists_reachable ⟨_, ⟨stored_init, rfl, rfl, fun _ _ => rfl⟩, .of_exec _ hs⟩
  exact ⟨⟨h, calls⟩, hr, selectIntoChunk_visible hr (t := 1) rfl hchunk hvisible 7 (by decide),
    hvalue, hrow⟩

theorem afterBegins_reachable {s : Db} (hi : s.Init) (hbits : ∀ x, s.deletedBit x = false)
    (n : Nat) : tableSystem.ReachableBy Fits ⟨Db.afterBegins s n, [], s⟩ := by
  induction n with
  | zero => exact ⟨_, ⟨hi, rfl, rfl, fun x _ => hbits x⟩, .refl⟩
  | succ n ih =>
      refine ih.steps (.single (a := .begin n) trivial ?_)
      have hidle : ((Db.afterBegins s n).txns n).ctl = .idle := by simp [Db.afterBegins_eq hi]
      exact if_pos hidle

section DirtyRead

variable {h : History} {a t : TxnId} {slot : Slot} (col : ColOid) (v : Value)
  (hchain : h.db.versions slot = []) (ha : (h.db.txns a).undo = [])

include hchain ha

theorem write_update_nil :
    h.write a (.update [(col, v)]) slot = { h with
      db := { h.db.setTxn a { h.db.txns a with
          undo := [⟨.update, (h.db.txns a).finish, slot,
            [(col, h.db.rows slot ((h.db.schema slot.tbl).position col))]⟩]
          returned := (.update [(col, v)], slot, true) :: (h.db.txns a).returned } with
        rows := update h.db.rows slot (update (h.db.rows slot)
          ((h.db.schema slot.tbl).position col) v)
        versions := update h.db.versions slot [⟨a, 0⟩] }
      events := ⟨⟨a, 0⟩, slot, .updated [(col, v)]⟩ :: h.events } := by
  simp [History.write, writeLogged, Db.tableWrite, Db.blocked, hchain, ha, Db.writePage,
    updateSingle, Db.newRecord, UndoRecord.initializeUpdate, WriteOp.change]

/-- A version stamped 0 is newer than no start time. -/
theorem selectIntoChunk_write (hne : t ≠ a) (hzero : (h.db.txns a).finish = 0)
    (ht : (h.db.txns t).finish ≠ 0) :
    (h.write a (.update [(col, v)]) slot).db.selectIntoChunk
      ((h.write a (.update [(col, v)]) slot).db.txns t) slot [(col, [])] =
        (.visible, [(col, v)]) := by
  rw [write_update_nil col v hchain ha]
  simp [Db.selectIntoChunk, Db.chain, Db.record, hne, hzero, Ne.symm ht, selectWalk, isNewerThan,
    readSingleIntoChunk, DataChunk.getColumnIds, DataChunk.write, UndoRecord.isDeleted, rowStatus]

/-- The update is not in the snapshot. -/
theorem snapshotValue_write (hne : t ≠ a) (hevents : h.events = [])
    (hcommit : (h.db.txns a).commitTime = none) :
    (h.write a (.update [(col, v)]) slot).snapshotValue t slot col =
      h.initial.rows slot ((h.db.schema slot.tbl).position col) := by
  have hcommit' : ∀ u r, ({ h.db.txns a with undo := u, returned := r } : Txn).commitTime = none :=
    fun _ _ => hcommit
  rw [write_update_nil col v hchain ha]
  simp [snapshotValue, lastUpdate, insertedValue, eventsOf, hevents, Ne.symm hne,
    committedBefore, hcommit', Change.insert]

end DirtyRead

/-- The versions of a transaction that begins at `2 ^ 63` are stamped 0 while
it is uncommitted, and every reader takes them for committed. -/
theorem uncommitted_read :
    ¬ ∀ (memory : UndoMemory) (x : WithUndo History),
      (tableHost.withUndo memory).ReachableBy (tableHost.CommitsWhole memory Fits) x →
      ∀ (t : TxnId) (slot : Slot) (chunk : DataChunk), (x.state.db.txns t).ctl = .active →
      (∀ col ∈ chunk.getColumnIds, col ∈ (x.state.db.schema slot.tbl).columns) →
      (x.state.db.selectIntoChunk (x.state.db.txns t) slot chunk).1 = .visible →
      ∀ col ∈ chunk.getColumnIds,
        (x.state.db.selectIntoChunk (x.state.db.txns t) slot chunk).2.get col =
          some (x.state.snapshotValue t slot col) := by
  intro hall
  obtain ⟨n, hn⟩ : ∃ n, n = 2 ^ 63 + 1 := ⟨_, rfl⟩
  obtain ⟨a, ha⟩ : ∃ a : Nat, a = 2 ^ 63 := ⟨_, rfl⟩
  have hzero : finishTimeOf (u64 a) = 0 := by rw [ha]; decide
  have hbase := Db.afterBegins_eq stored_init n
  have hr := afterBegins_reachable stored_init (fun _ => rfl) n
  have htxn : ∀ t, t < n → (Db.afterBegins stored n).txns t =
      ⟨.active, u64 t, finishTimeOf (u64 t), [], []⟩ := by
    intro t ht
    simp [hbase, ht]
  have hxa := htxn a (by omega)
  have hx0 := htxn 0 (by omega)
  have hne : (0 : TxnId) ≠ a := ha ▸ by decide
  have hchain : (Db.afterBegins stored n).versions Db.firstSlot = [] := by rw [hbase]; rfl
  have hschema : (Db.afterBegins stored n).schema = stored.schema := by rw [hbase]
  have hfits : Fits ⟨Db.afterBegins stored n, [], stored⟩
      (.write a (.update [(7, [1])]) Db.firstSlot) := by
    show DataChunk.Fits ((Db.afterBegins stored n).schema 1) [(7, [1])]
    rw [hschema]
    decide
  have hwrite :=
    hr.steps (.single hfits (if_pos ⟨by rw [hxa], by rw [hbase]; exact Nat.zero_lt_one⟩))
  have hundo : ((Db.afterBegins stored n).txns a).undo = [] := by rw [hxa]
  have hread := selectIntoChunk_write (h := ⟨Db.afterBegins stored n, [], stored⟩) 7 [1]
    hchain hundo hne (by simp [hxa, hzero]) (by simp [hx0]; decide)
  have hvalue := snapshotValue_write (h := ⟨Db.afterBegins stored n, [], stored⟩) 7 [1]
    hchain hundo hne rfl (by simp [hxa, Txn.commitTime])
  obtain ⟨calls, hbuffers, -⟩ := tableHost.exists_reachable hwrite
  have hclaim := hall _ _ hbuffers 0 Db.firstSlot [(7, [])]
    (by rw [write_update_nil 7 [1] hchain hundo]; simp [hne, hx0])
    (by rw [write_update_nil 7 [1] hchain hundo]; simp [hbase, DataChunk.getColumnIds]; decide)
    (by rw [hread]) 7 (by decide)
  rw [hread, hvalue] at hclaim
  simp [DataChunk.get, stored, Db.stored, Db.empty] at hclaim

end History

end Db7
