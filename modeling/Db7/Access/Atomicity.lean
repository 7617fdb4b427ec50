import Db7.Access.Settled

/-!
# Table operations are atomic

Where the writes of a tuple keep to one path (`OnePath`), the interleavings of the fine-grained
system are those of whole operations:

* **step** (`settled_step`): an atomic step leaves the settled database as it is, or does to it what
  one whole operation does (`tableSystem`);
* **run** (`calls_atomic`): so every run of atomic steps is one of whole operations, each of which
  takes effect at a moment between its call and its return.
-/

namespace Db7

open Lib Function

namespace Db

variable {path : Slot → Bool} {s s' : Db} {a : Action} {t u : TxnId} {x : Slot}
  {op : WriteOp} {rec : Nat} {pc : WritePc} {p : RecPtr} {head : Option RecPtr}

/-! ## Steps that nobody sees -/

section Steps

/-- The settled database is as before, or as a whole operation leaves it. -/
def Matched (s s' : Db) : Prop :=
  s'.settled = s.settled ∨ ∃ b : TableAction, ∀ h : History, h.db = s.settled →
    h.Regular b ∧ ∃ h', h.step b = some h' ∧ h'.db = s'.settled

/-- A step of a call that leaves what the settled database shows of it. -/
theorem settled_setTxn {y : Txn} (htxn : y.settled = (s.txns t).settled)
    (hctl : ∀ x, y.ctl.unlinked x = (s.txns t).ctl.unlinked x ∧
      y.ctl.unmarked x = (s.txns t).ctl.unmarked x) :
    (s.setTxn t y).settled = s.settled :=
  settled_eq_of_ctl (t := t) (fun u hu => by simp [hu]) (by simpa using htxn) rfl rfl rfl
    rfl rfl rfl rfl
    (fun x => by simpa using hctl x)

theorem settled_tryLatch (hctl : (s.txns t).ctl = .spinning) :
    (s.tryLatch t).settled = s.settled := by
  unfold tryLatch
  split
  · rfl
  · exact settled_setTxn (by simp [Txn.settled, hctl]) (by simp [hctl, Ctl.unlinked, Ctl.unmarked])

theorem settled_lockLatch (hctl : (s.txns t).ctl = .active) :
    (s.lockLatch t).settled = s.settled := by
  refine settled_eq_of_ctl (t := t) (fun u hu => by simp [hu]) ?_ rfl rfl rfl rfl rfl rfl rfl
    (by simp [hctl, Ctl.unlinked, Ctl.unmarked])
  rw [lockLatch_txns, update_self, settled_of_active hctl]
  exact congrArg (fun ctl => { s.txns t with ctl := ctl }) hctl.symm

/-- The records that are restamped have their commit time already. -/
theorem settled_restampOne {c i : Nat} (hctl : (s.txns t).ctl = .restamping c i) :
    (s.restampOne t c i).settled = s.settled := by
  refine settled_setTxn ?_ (by simp [hctl, Ctl.unlinked, Ctl.unmarked])
  have hmap : ((s.txns t).undo.modify i fun r => r.setTimestamp c).map (fun r => r.setTimestamp c) =
      (s.txns t).undo.map fun r => r.setTimestamp c := by
    refine List.ext_getElem? fun j => ?_
    rw [List.getElem?_map, List.getElem?_map, List.getElem?_modify]
    cases (s.txns t).undo[j]? with
    | none => rfl
    | some r =>
        show some ((if i = j then r.setTimestamp c else r).setTimestamp c) = some (r.setTimestamp c)
        split <;> rfl
  simp [Txn.settled, hctl, hmap]

theorem settled_unlockLatch (hc : CommitInv signBit s) {c i : Nat}
    (hctl : (s.txns t).ctl = .restamping c i)
    (hi : (s.txns t).undo.length ≤ i) : (s.unlockLatch t c).settled = s.settled := by
  refine settled_eq_of_ctl (t := t) (fun u hu => by simp [hu]) ?_ rfl rfl rfl rfl rfl rfl rfl
    (by simp [hctl, Ctl.unlinked, Ctl.unmarked])
  have hmap : (s.txns t).undo.map (fun r => r.setTimestamp c) = (s.txns t).undo := by
    refine (List.map_congr_left fun r hr => ?_).trans (List.map_id _)
    obtain ⟨j, hj⟩ := List.mem_iff_getElem?.mp hr
    have hlt : j < (s.txns t).undo.length := (List.getElem?_eq_some_iff.mp hj).1
    have hstamp : r.timestamp = c := by
      rw [(hc.ok t).stamps j r hj, Txn.stampAt, hctl]
      exact if_pos (by omega)
    simp [UndoRecord.setTimestamp, ← hstamp]
  simp [Txn.settled, hctl, hmap]

/-- Moving the program counter before the write takes effect. -/
theorem settled_setPc {pc' : WritePc} (hctl : (s.txns t).ctl = .writing op x rec pc)
    (hout : pc.outcome op = none) (hout' : pc'.outcome op = none) :
    (s.setTxn t (setPc (s.txns t) op x rec pc')).settled = s.settled := by
  have hheld : ∀ {pc : WritePc}, pc.outcome op = none → ∀ y,
      (Ctl.writing op x rec pc).unlinked y = none ∧
      (Ctl.writing op x rec pc).unmarked y = false := by
    intro pc hout y
    cases pc with
    | exit ok => simp [WritePc.outcome] at hout
    | link head =>
        cases op with
        | update chunk => simp [WritePc.outcome, WriteOp.isDelete] at hout
        | _ => exact ⟨rfl, rfl⟩
    | _ => cases op <;> exact ⟨rfl, rfl⟩
  refine settled_setTxn ?_ fun y => ?_
  · rw [settled_of_none hctl hout, settled_of_none (y := setPc (s.txns t) op x rec pc') rfl hout']
    rfl
  · rw [hctl, (hheld hout y).1, (hheld hout y).2]
    exact hheld hout' y

/-- A write that has made its record has not begun. -/
theorem settled_startWrite (hctl : (s.txns t).ctl = .active)
    (hlatch : latched op = true → s.latch x.tbl x.pid = none) :
    (s.startWrite t op x).settled = s.settled := by
  have hown : ((s.startWrite t op x).txns t).ctl = .writing op x (s.txns t).undo.length .load := by
    simp [startWrite]
  have hothers : ∀ u, u ≠ t → (s.startWrite t op x).txns u = s.txns u :=
    fun u hu => by simp [startWrite, hu]
  have hctls : ∀ u y, ((s.startWrite t op x).txns u).ctl.unlinked y = (s.txns u).ctl.unlinked y ∧
      ((s.startWrite t op x).txns u).ctl.unmarked y = (s.txns u).ctl.unmarked y := by
    intro u y
    by_cases hu : u = t
    · subst hu
      rw [hown, hctl]
      cases op <;> exact ⟨rfl, rfl⟩
    · rw [hothers u hu]
      exact ⟨rfl, rfl⟩
  have hheld : ∀ y, (s.startWrite t op x).unlinked y = s.unlinked y ∧
      (s.startWrite t op x).unmarked y = s.unmarked y := by
    intro y
    by_cases hpage : latched op = true ∧ y.tbl = x.tbl ∧ y.pid = x.pid
    · -- the page had no holder, and the new one has nothing to do yet
      obtain ⟨hl, htbl, hpid⟩ := hpage
      have hbefore : s.latch y.tbl y.pid = none := htbl ▸ hpid ▸ hlatch hl
      have hafter : (s.startWrite t op x).latch y.tbl y.pid = some t := by
        simp [startWrite, hl, htbl, hpid]
      have hfree := hctls t y
      rw [hctl] at hfree
      simp only [unlinked, unmarked, hbefore, hafter, Option.bind_some, Option.any_some]
      rw [hfree.1, hfree.2]
      exact ⟨rfl, rfl⟩
    · have hsame : (s.startWrite t op x).latch y.tbl y.pid = s.latch y.tbl y.pid := by
        simp only [startWrite]
        split
        · rename_i hl
          exact (latch_update ..).trans (if_neg fun h => hpage ⟨hl, h⟩)
        · rfl
      simp only [unlinked, unmarked, hsame, (hctls _ y).1, (hctls _ y).2, and_self]
  refine settled_eq_of hothers ?_ rfl rfl rfl rfl (fun y => ?_) fun y => ?_
  · rw [settled_of_none hown rfl, settled_of_active hctl]
    simp [startWrite, ← hctl]
  · rw [(hheld y).1]
    rfl
  · rw [(hheld y).2]
    rfl

/-- An update that has written its row is over. -/
theorem settled_link {chunk : DataChunk} (hi : RunInv path s)
    (hctl : (s.txns t).ctl = .writing (.update chunk) x rec (.link head))
    (hhead : (s.versions x).head? = head) :
    (s.link t (.update chunk) x rec head).settled = s.settled := by
  have heq : s.link t (.update chunk) x rec head =
      { s.setTxn t (setPc (s.txns t) (.update chunk) x rec (.exit true)) with
        versions := update s.versions x (⟨t, rec⟩ :: s.versions x) } := if_pos hhead
  have hmine : s.latch x.tbl x.pid = some t := hi.latch _ _ _ _ _ hctl rfl
  rw [heq]
  refine settled_eq_of (t := t) (fun u hu => by simp [hu]) ?_ rfl rfl rfl rfl (fun y => ?_) fun y =>
    ?_
  · simp only [setTxn_txns, update_self]
    rw [settled_of_some hctl (WritePc.outcome_update chunk head),
      settled_of_some (y := setPc (s.txns t) (.update chunk) x rec (.exit true)) rfl rfl]
    rfl
  · by_cases hy : y = x
    · subst hy
      simp [unlinked, hmine, hctl, setPc, Ctl.unlinked]
    · -- no other tuple waits for the record
      have hsame :
          ∀ u, (update s.txns t (setPc (s.txns t) (.update chunk) x rec (.exit true))
            u).ctl.unlinked y = (s.txns u).ctl.unlinked y := by
        intro u
        by_cases hu : u = t
        · subst hu
          simp [hctl, setPc, Ctl.unlinked, Ne.symm hy]
        · rw [update_of_ne hu]
      simp only [unlinked, setTxn_txns, setTxn_latch, hsame, update_of_ne hy]
  · have hsame :
        ∀ u, (update s.txns t (setPc (s.txns t) (.update chunk) x rec (.exit true))
          u).ctl.unmarked y = (s.txns u).ctl.unmarked y := by
      intro u
      by_cases hu : u = t
      · subst hu
        simp [hctl, setPc, Ctl.unmarked]
      · rw [update_of_ne hu]
    simp only [unmarked, setTxn_txns, setTxn_latch, setTxn_deletedBit, hsame]

/-- A call that returns is over before. -/
theorem settled_finishWrite {ok : Bool} (hi : RunInv path s)
    (hctl : (s.txns t).ctl = .writing op x rec (.exit ok)) :
    (s.finishWrite t op x ok).settled = s.settled := by
  have hothers : ∀ u, u ≠ t → (s.finishWrite t op x ok).txns u = s.txns u :=
    fun u hu => by simp [finishWrite, hu]
  have hown : ((s.finishWrite t op x ok).txns t).ctl = .active := by simp [finishWrite]
  have hlatch : ∀ y : Slot, (s.finishWrite t op x ok).latch y.tbl y.pid = s.latch y.tbl y.pid ∨
      (latched op = true ∧ (s.finishWrite t op x ok).latch y.tbl y.pid = none ∧
        s.latch y.tbl y.pid = some t) := by
    intro y
    simp only [finishWrite]
    split
    · rename_i hl
      rw [latch_update]
      split
      · rename_i hpage
        exact .inr ⟨hl, rfl, by rw [hpage.1, hpage.2]; exact hi.latch _ _ _ _ _ hctl hl⟩
      · exact .inl rfl
    · exact .inl rfl
  refine settled_eq_of hothers ?_ rfl rfl rfl rfl (fun y => ?_) fun y => ?_
  · rw [settled_of_active hown, settled_of_some hctl rfl]
    simp [finishWrite]
  · have hsame :
        ∀ u, ((s.finishWrite t op x ok).txns u).ctl.unlinked y = (s.txns u).ctl.unlinked y := by
      intro u
      by_cases hu : u = t
      · subst hu
        rw [hown, hctl]
        cases op <;> rfl
      · rw [hothers u hu]
    have hunlinked : (s.finishWrite t op x ok).unlinked y = s.unlinked y := by
      rcases hlatch y with heq | ⟨-, hnone, hsome⟩
      · simp only [unlinked, heq, hsame]
      · have hnothing := hsame t
        rw [hown] at hnothing
        simp only [unlinked, hnone, hsome, Option.bind_some, ← hnothing]
        rfl
    rw [hunlinked]
    rfl
  · by_cases hdelete : op = .delete ∧ ok = true ∧ y = x
    · -- the bit is set at last
      obtain ⟨rfl, rfl, rfl⟩ := hdelete
      have hmine := hi.latch _ _ _ _ _ hctl rfl
      simp [finishWrite, unmarked, hmine, hctl, Ctl.unmarked]
    · have hbefore : (s.txns t).ctl.unmarked y = false := by
        rw [hctl]
        cases op with
        | delete =>
            cases ok with
            | false => rfl
            | true => exact decide_eq_false fun h => hdelete ⟨rfl, rfl, h.symm⟩
        | _ => rfl
      have hsame :
          ∀ u, ((s.finishWrite t op x ok).txns u).ctl.unmarked y = (s.txns u).ctl.unmarked y := by
        intro u
        by_cases hu : u = t
        · subst hu
          rw [hown, hbefore]
          rfl
        · rw [hothers u hu]
      have hbit : (s.finishWrite t op x ok).deletedBit y = s.deletedBit y := by
        simp only [finishWrite]
        split
        · rename_i hdel
          exact update_of_ne (fun h => hdelete ⟨hdel.1, hdel.2, h⟩) _ _
        · rfl
      rcases hlatch y with heq | ⟨-, hnone, hsome⟩
      · simp only [unmarked, heq, hsame, hbit]
      · simp [unmarked, hnone, hsome, hbit, hbefore]

/-! ## Steps that take effect -/

theorem matched_begin (hctl : (s.txns t).ctl = .idle) (hlt : s.time < signBit) :
    Matched s (s.beginTransaction t) := by
  refine .inr ⟨.begin t, fun h hdb => ⟨⟨fun _ => show h.db.time < signBit from hdb ▸ hlt, trivial⟩,
    { h with db := h.db.beginAlone t }, if_pos (by rw [hdb]; simp [Txn.settled, hctl]), ?_⟩⟩
  have hheld := heldBack_congr s (s.beginTransaction t) t (fun u hu => by simp [hu]) rfl
    (by simp [hctl, Ctl.unlinked, Ctl.unmarked])
  show h.db.beginAlone t = _
  rw [hdb, beginAlone_of_zero rfl]
  refine Db.ext rfl rfl (funext fun u => ?_) (funext fun x => ?_) rfl rfl rfl
    (funext fun x => ?_) rfl
  · by_cases hu : u = t
    · subst hu
      simp [Txn.settled]
    · simp [hu]
  · rw [settled_versions, (hheld x).1]
    rfl
  · rw [settled_deletedBit, (hheld x).2]
    rfl

theorem matched_checkOut (hctl : (s.txns t).ctl = .locked) (hlt : s.time < signBit) :
    Matched s (s.checkOutCommit t) := by
  have hactive : (s.txns t).settled = { s.txns t with ctl := .active } := by
    simp [Txn.settled, hctl]
  refine .inr ⟨.commit t, fun h hdb => ⟨⟨fun _ => show h.db.time < signBit from hdb ▸ hlt, trivial⟩,
    { h with db := h.db.commitAlone t }, if_pos (by rw [hdb, settled_txns, hactive]), ?_⟩⟩
  have hheld := heldBack_congr s (s.checkOutCommit t) t (fun u hu => by simp [hu]) rfl
    (by simp [hctl, Ctl.unlinked, Ctl.unmarked])
  show h.db.commitAlone t = _
  rw [hdb]
  refine Db.ext rfl rfl (funext fun u => ?_) (funext fun x => ?_) rfl rfl rfl
    (funext fun x => ?_) rfl
  · by_cases hu : u = t
    · subst hu
      simp [commitAlone, checkOutTimestamp, Txn.settled, hctl]
    · simp [commitAlone, checkOutTimestamp, hu]
  · rw [settled_versions, (hheld x).1]
    rfl
  · rw [settled_deletedBit, (hheld x).2]
    rfl

theorem matched_insert {tbl pid : Nat} {chunk : DataChunk} (hctl : (s.txns t).ctl = .active)
    (hlatch : s.latch tbl pid = none) (hfits : chunk.Fits (s.schema tbl)) :
    Matched s (s.insertTuple t tbl pid chunk) := by
  have hactive := settled_of_active hctl
  refine .inr ⟨.insert t tbl pid chunk, fun h hdb => ⟨⟨History.handsOutBelow_insert,
      show chunk.Fits (h.db.schema tbl) from hdb ▸ hfits⟩,
    h.insert t tbl pid chunk, if_pos (by rw [hdb, settled_txns, hactive, hctl]), ?_⟩⟩
  have hheld := heldBack_congr s (s.insertTuple t tbl pid chunk) t
    (fun u hu => by simp [insertTuple, hu]) rfl
      (by simp [insertTuple, hctl, Ctl.unlinked, Ctl.unmarked])
  show h.db.insertTuple t tbl pid chunk = _
  rw [hdb]
  refine Db.ext rfl rfl (funext fun u => ?_) (funext fun x => ?_) rfl rfl rfl
    (funext fun x => ?_) rfl
  · by_cases hu : u = t
    · subst hu
      simp [insertTuple, Txn.settled, hctl]
    · simp [insertTuple, hu]
  · rw [settled_versions, (hheld x).1]
    by_cases hx : x = ⟨tbl, pid, s.count tbl pid⟩
    · subst hx
      simp [insertTuple, hactive, unlinked, hlatch]
    · simp [insertTuple, hx]
  · rw [settled_deletedBit, (hheld x).2]
    rfl

/-- A write that has not taken effect finds the head in the settled database as it is. -/
theorem blocked_settled (hi : RunInv path s) (hctl : (s.txns t).ctl = .writing op x rec pc)
    (hout : pc.outcome op = none) (hmem : ∀ p, head = some p → p ∈ s.versions x) :
    s.settled.blocked (s.txns t).settled x head op = s.blocked (s.txns t) x head op := by
  refine blocked_congr ?_ (fun hlatched => ?_) fun _ => ?_
  · cases head with
    | none => rfl
    | some p => exact hasConflict_settled hi (running_of_writing hctl) (hmem p rfl)
  · rw [settled_deletedBit, (unlinked_of_writing hi hctl hout).2 hlatched, Bool.or_false]
  · cases head with
    | none => rfl
    | some p => exact kind_settled hi (hmem p rfl)

/-- A conflict with the newest version is enough to be turned away. -/
theorem blocked_of_hasConflict {y : Txn} (h : s.hasConflict y (some p) = true) :
    s.blocked y x (some p) op = true := by
  cases op <;> simp [blocked, h]

theorem write_db (h : History) (t : TxnId) (op : WriteOp) (x : Slot) :
    (h.write t op x).db = h.db.tableWrite t op x := by
  unfold History.write
  split <;> rfl

/-- The whole write that takes the place of the one under way. -/
theorem matched_write (hi : RunInv path s) (hctl : (s.txns t).ctl = .writing op x rec pc)
    (hout : pc.outcome op = none)
    (hfits : ∀ chunk, op = .update chunk → chunk.Fits (s.schema x.tbl))
    (heq : s.settled.tableWrite t op x = s'.settled) : Matched s s' := by
  have hactive :
      (s.txns t).settled = { s.txns t with ctl := .active, undo := (s.txns t).undo.take rec } :=
    settled_of_none hctl hout
  have halloc := (hi.chain.loop _ _ _ _ _ hctl).allocated
  refine .inr ⟨.write t op x, fun h hdb =>
    ⟨⟨History.handsOutBelow_write, ?_⟩, h.write t op x, ?_, by rw [write_db, hdb, heq]⟩⟩
  · cases op with
    | update chunk => exact show chunk.Fits (h.db.schema x.tbl) from hdb ▸ hfits chunk rfl
    | _ => trivial
  · exact if_pos ⟨by rw [hdb, settled_txns, hactive], by rw [hdb]; exact halloc⟩

/-- A write that is turned away. -/
theorem matched_fail (hi : RunInv path s) (hcalls : CallInv s)
    (hctl : (s.txns t).ctl = .writing op x rec (.check head))
    (hfits : ∀ chunk, op = .update chunk → chunk.Fits (s.schema x.tbl))
    (hb : s.blocked (s.txns t) x head op = true) : Matched s (s.checkHead t op x rec head) := by
  have hcall := hcalls _ _ _ _ _ hctl
  have hrun : (s.txns t).running = true := running_of_writing hctl
  have hlast := (hi.chain.loop _ _ _ _ _ hctl).last
  have hrecord := hcall.record rfl
  have hunlinked := (unlinked_of_writing hi hctl rfl).1
  -- it would be turned away by the head of now as well
  have hblocked :
      s.settled.blocked (s.settled.txns t) x (s.settled.versions x).head? op = true := by
    obtain ⟨new, rest, hv, hhead, hnew⟩ := hcall.newer rfl
    rw [settled_versions, hunlinked, Option.toList_none, List.nil_append, settled_txns,
      blocked_settled hi hctl rfl fun p hp => List.mem_of_mem_head? hp]
    cases new with
    | nil => rwa [hv, List.nil_append, hhead]
    | cons p new =>
        have hp : p ∈ s.versions x := by simp [hv]
        rw [hv, List.cons_append, List.head?_cons]
        refine blocked_of_hasConflict ?_
        rw [← Bool.not_eq_false, hasConflict_eq_false_iff hi.commit hi.snapshots hrun
          (hi.chain.valid x p hp)]
        exact hnew p List.mem_cons_self
  have hheld := heldBack_congr s (s.checkHead t op x rec head) t
    (fun u hu => by simp [checkHead, hb, hu]) (by simp [checkHead, hb]) fun y => by
      rw [hctl]
      cases op <;> simp [checkHead, hb, setPc, Ctl.unlinked, Ctl.unmarked]
  refine matched_write hi hctl rfl hfits ?_
  rw [tableWrite, if_pos hblocked]
  refine Db.ext ?_ rfl (funext fun u => ?_) (funext fun y => ?_) ?_ ?_ ?_ (funext fun y => ?_) rfl
  · simp [checkHead, hb]
  · by_cases hu : u = t
    · subst hu
      have hctl' : (s.checkHead u op x rec head).txns u =
          setPc { s.txns u with undo := (s.txns u).undo.modify rec UndoRecord.invalidate } op x rec
            (.exit false) := by
        simp [checkHead, hb]
      show _ = ((s.checkHead u op x rec head).txns u).settled
      rw [hctl', settled_of_some rfl (show (WritePc.exit false).outcome op = some false from rfl)]
      have hbefore :
          (s.txns u).settled = { s.txns u with ctl := .active, undo := (s.txns u).undo.take rec } :=
        settled_of_none hctl rfl
      simp [hbefore, setPc, modify_last hrecord hlast]
    · simp [checkHead, hb, hu]
  · rw [settled_versions, (hheld y).1, checkHead_versions]
    rfl
  · simp [checkHead, hb]
  · simp [checkHead, hb]
  · simp [checkHead, hb]
  · rw [settled_deletedBit, (hheld y).2]
    simp [checkHead, hb]

/-- The coarse write of a call that has not been turned away. -/
theorem tableWrite_settled (hi : RunInv path s) (hcalls : CallInv s)
    (hctl : (s.txns t).ctl = .writing op x rec pc) (hout : pc.outcome op = none)
    (htested : pc.tested = true)
    (hhead : (s.versions x).head? = pc.head) : s.settled.tableWrite t op x =
      { s.settled.setTxn t { s.txns t with
          ctl := .active
          undo := (s.txns t).undo.modify rec fun r => { r with delta := (s.writePage x op).1 }
          returned := (op, x, true) :: (s.txns t).returned } with
        rows := update s.rows x (s.writePage x op).2
        versions := update s.settled.versions x (⟨t, rec⟩ :: s.versions x)
        deletedBit :=
          if op = .delete then update s.settled.deletedBit x true else s.settled.deletedBit } := by
  have hcall := hcalls _ _ _ _ _ hctl
  have hlast := (hi.chain.loop _ _ _ _ _ hctl).last
  have hv : s.settled.versions x = s.versions x := by
    rw [settled_versions, (unlinked_of_writing hi hctl hout).1, Option.toList_none, List.nil_append]
  have hblocked :
      s.settled.blocked (s.settled.txns t) x (s.settled.versions x).head? op = false := by
    rw [hv, hhead, settled_txns, blocked_settled hi hctl hout fun p =>
      hcall.mem_versions (holds_of_tested htested)]
    exact hcall.unblocked htested
  have hpage : s.settled.writePage x op = s.writePage x op := by cases op <;> rfl
  have hlen : ((s.txns t).undo.take rec).length = rec := by
    rw [List.length_take]
    omega
  rw [tableWrite, if_neg (Bool.eq_false_iff.mp hblocked), hpage, hv]
  simp only [settled_txns, settled_of_none hctl hout, modify_last (hcall.record hout) hlast,
    hlen, settled_rows]

/-- An update takes effect when it writes its row: nobody else can link a record meanwhile. -/
theorem matched_apply {chunk : DataChunk} (hi : RunInv path s) (hcalls : CallInv s)
    (hctl : (s.txns t).ctl = .writing (.update chunk) x rec (.apply head))
    (hfits : chunk.Fits (s.schema x.tbl)) :
    Matched s (s.applyUpdate t chunk x rec head) := by
  have hmine : s.latch x.tbl x.pid = some t := hi.latch _ _ _ _ _ hctl rfl
  have hhead := (hi.path.call _ _ _ _ _ hctl).current rfl (by simp) (by simp)
  have hothers : ∀ u, u ≠ t → (s.applyUpdate t chunk x rec head).txns u = s.txns u :=
    fun u hu => by simp [applyUpdate, hu]
  have hown : ((s.applyUpdate t chunk x rec head).txns t).ctl =
      .writing (.update chunk) x rec (.link head) := by
    simp [applyUpdate, setPc]
  refine matched_write hi hctl rfl (fun c hc => by cases hc; exact hfits) ?_
  rw [tableWrite_settled hi hcalls hctl rfl rfl hhead]
  refine Db.ext rfl rfl (funext fun u => ?_) (funext fun y => ?_) rfl rfl rfl
    (funext fun y => ?_) rfl
  · by_cases hu : u = t
    · subst hu
      show _ = ((s.applyUpdate u chunk x rec head).txns u).settled
      rw [settled_of_some hown (WritePc.outcome_update chunk head)]
      simp [applyUpdate, setPc, writePage]
    · simp [applyUpdate, hu]
  · by_cases hy : y = x
    · subst hy
      have hlatch : (s.applyUpdate t chunk y rec head).latch y.tbl y.pid = some t := hmine
      rw [settled_versions, unlinked, hlatch, Option.bind_some, hown]
      simp [Ctl.unlinked, applyUpdate]
    · rw [settled_versions,
        unlinked_congr hothers rfl (by rw [hown, hctl]; simp [Ctl.unlinked, Ne.symm hy])]
      simp [applyUpdate, hy]
  · rw [settled_deletedBit, unmarked_congr hothers rfl (by rw [hown, hctl]; rfl)]
    rfl

/-- A delete takes effect when it links its record. -/
theorem matched_link (hi : RunInv path s) (hcalls : CallInv s) (hdelete : op.isDelete = true)
    (hctl : (s.txns t).ctl = .writing op x rec (.link head)) (hhead : (s.versions x).head? = head) :
    Matched s (s.link t op x rec head) := by
  have hout : (WritePc.link head).outcome op = none := by simp [WritePc.outcome, hdelete]
  have heq : s.link t op x rec head = { s.setTxn t (setPc (s.txns t) op x rec (.exit true)) with
      versions := update s.versions x (⟨t, rec⟩ :: s.versions x) } := if_pos hhead
  have hothers : ∀ u, u ≠ t → (s.link t op x rec head).txns u = s.txns u :=
    fun u hu => by simp [heq, hu]
  have hown : ((s.link t op x rec head).txns t).ctl = .writing op x rec (.exit true) := by
    simp [heq, setPc]
  have hpage : s.writePage x op = ([], s.rows x) := by
    cases op with
    | update chunk => simp [WriteOp.isDelete] at hdelete
    | _ => rfl
  have hdelta : (s.txns t).undo.modify rec (fun r => { r with delta := [] }) = (s.txns t).undo := by
    have hrecord := (hcalls _ _ _ _ _ hctl).record hout
    have hnil := newRecord_delta (s.txns t).finish x op fun chunk h => by
      simp [h, WriteOp.isDelete] at hdelete
    refine List.ext_getElem? fun j => ?_
    rw [List.getElem?_modify]
    by_cases hj : rec = j
    · subst hj
      simp [hrecord, ← hnil]
    · simp [hj]
  refine matched_write hi hctl hout (fun c hc => by simp [hc, WriteOp.isDelete] at hdelete) ?_
  rw [tableWrite_settled hi hcalls hctl hout rfl hhead, hpage, hdelta]
  refine Db.ext (by rw [heq]; rfl) rfl (funext fun u => ?_) (funext fun y => ?_) (by rw [heq]; rfl)
    (by rw [heq]; rfl)
    ?_ (funext fun y => ?_) rfl
  · by_cases hu : u = t
    · subst hu
      show _ = ((s.link u op x rec head).txns u).settled
      rw [settled_of_some hown (show (WritePc.exit true).outcome op = some true from rfl)]
      simp [heq, setPc]
    · rw [settled_txns, hothers u hu]
      simp [hu]
  · rw [settled_versions, unlinked_congr hothers (by rw [heq]; rfl)
      (by rw [hown, hctl]; cases op <;> simp_all [Ctl.unlinked, WriteOp.isDelete])]
    by_cases hy : y = x
    · subst hy
      simp [heq, (unlinked_of_writing hi hctl hout).1]
    · simp [heq, hy]
  · simp [heq]
  · by_cases hbit : op = .delete ∧ y = x
    · -- the bit of a latched delete
      obtain ⟨rfl, rfl⟩ := hbit
      have hmine : (s.link t .delete y rec head).latch y.tbl y.pid = some t := by
        rw [heq]
        exact hi.latch _ _ _ _ _ hctl rfl
      simp only [settled_deletedBit, unmarked, hmine, Option.any_some, hown]
      simp [Ctl.unmarked]
    · rw [settled_deletedBit, unmarked_congr hothers (by rw [heq]; rfl)]
      · simp only [heq]
        split
        · rename_i hdel
          rw [update_of_ne fun h => hbit ⟨hdel, h⟩]
          rfl
        · rfl
      · rw [hown, hctl]
        cases op with
        | delete => exact decide_eq_false fun h => hbit ⟨rfl, h.symm⟩
        | _ => rfl

end Steps

/-! ## Runs -/

/-- The writes of a tuple keep to one path, with chunks of its table, while there are timestamps
left. -/
def Orderly (path : Slot → Bool) (s : Db) (a : Action) : Prop :=
  HandsOutBelow signBit s a ∧ OnePath path a ∧ s.Fits a

instance (path : Slot → Bool) (s : Db) (a : Action) : Decidable (Orderly path s a) :=
  inferInstanceAs (Decidable (_ ∧ _))

/-- What every orderly run keeps. -/
structure AtomicInv (path : Slot → Bool) (s : Db) : Prop where
  run : RunInv path s
  calls : CallInv s
  fits : ∀ t chunk x rec pc, (s.txns t).ctl = .writing (.update chunk) x rec pc →
    chunk.Fits (s.schema x.tbl)

/-- A write under way after a step of its own was so before, or has just been called. -/
theorem Stepped.writing_cases (hs : Stepped s a s')
    (hctl : (s'.txns a.txn).ctl = .writing op x rec pc) :
    (∃ pc', (s.txns a.txn).ctl = .writing op x rec pc') ∨ a = .write a.txn op x := by
  cases hs with
  | spin hold =>
      unfold tryLatch at hctl
      split at hctl <;> simp [Action.txn, hold] at hctl
  | insert hold _ => simp [Action.txn, insertTuple, hold] at hctl
  | @start t op' slot' _ _ _ =>
      obtain ⟨rfl, rfl, -⟩ :
          op' = op ∧ slot' = x ∧ _ := by simpa [Action.txn, startWrite] using hctl
      exact .inr rfl
  | @load t op' slot' rec' hold =>
      simp only [Action.txn, setPc, setTxn_txns, update_self, Ctl.writing.injEq] at hctl
      obtain ⟨rfl, rfl, rfl, -⟩ := hctl
      exact .inl ⟨_, hold⟩
  | @check t op' slot' rec' head hold =>
      obtain ⟨pc', hctl'⟩ := checkHead_ctl s t op' slot' rec' head
      obtain ⟨rfl, rfl, rfl, -⟩ := Ctl.writing.inj (hctl'.symm.trans hctl)
      exact .inl ⟨_, hold⟩
  | @apply t chunk slot' rec' head hold =>
      simp only [Action.txn, applyUpdate, setPc, setTxn_txns, update_self,
        Ctl.writing.injEq] at hctl
      obtain ⟨rfl, rfl, rfl, -⟩ := hctl
      exact .inl ⟨_, hold⟩
  | @link t op' slot' rec' head hold =>
      obtain ⟨pc', hctl'⟩ := link_ctl s t op' slot' rec' head
      obtain ⟨rfl, rfl, rfl, -⟩ := Ctl.writing.inj (hctl'.symm.trans hctl)
      exact .inl ⟨_, hold⟩
  | _ => simp [Action.txn, finishWrite, restampOne] at hctl

theorem atomicInv_init (h : s.Init) : AtomicInv path s := by
  obtain ⟨-, -, htxns, -⟩ := id h
  exact ⟨runInv_init h, fun t op x rec pc hctl => by simp [htxns] at hctl,
    fun t chunk x rec pc hctl => by simp [htxns] at hctl⟩

theorem atomicInv_step (h : AtomicInv path s) (hc : Orderly path s a) (hstep : s.step a = some s') :
    AtomicInv path s' := by
  have hs := stepped_of_step hstep
  refine ⟨runInv_step h.run hc.1 hc.2.1 hstep, callInv_step h.calls h.run hc.1 hstep,
    fun t chunk x rec pc hctl => ?_⟩
  rw [hs.schema_eq]
  by_cases hown : t = a.txn
  · subst hown
    rcases hs.writing_cases hctl with ⟨pc', hold⟩ | hcalled
    · exact h.fits _ _ _ _ _ hold
    · have hfits := hc.2.2
      rw [hcalled] at hfits
      exact hfits
  · rw [hs.txns_of_ne hown] at hctl
    exact h.fits _ _ _ _ _ hctl

/-- A step leaves the settled database as it is, or does to it what a whole operation does. -/
theorem settled_step (h : AtomicInv path s) (hc : Orderly path s a) (hstep : s.step a = some s') :
    Matched s s' := by
  have hi := h.run
  have hfits : ∀ {t op x rec pc}, (s.txns t).ctl = .writing op x rec pc →
      ∀ chunk, op = .update chunk → chunk.Fits (s.schema x.tbl) := by
    rintro t op x rec pc hctl chunk rfl
    exact h.fits _ _ _ _ _ hctl
  cases stepped_of_step hstep with
  | begin hctl => exact matched_begin hctl (hc.1 rfl)
  | spin hctl => exact .inl (settled_tryLatch hctl)
  | insert hctl hlatch => exact matched_insert hctl hlatch hc.2.2
  | start hctl _ hlatch => exact .inl (settled_startWrite hctl hlatch)
  | lock hctl => exact .inl (settled_lockLatch hctl)
  | checkOut hctl => exact matched_checkOut hctl (hc.1 (decide_eq_true hctl))
  | restamp hctl _ => exact .inl (settled_restampOne hctl)
  | unlock hctl hlen => exact .inl (settled_unlockLatch hi.commit hctl hlen)
  | load hctl => exact .inl (settled_setPc hctl rfl rfl)
  | @check t op x rec head hctl =>
      cases hb : s.blocked (s.txns t) x head op with
      | true => exact matched_fail hi h.calls hctl (hfits hctl) hb
      | false =>
          left
          rw [checkHead, if_neg (by simp [hb])]
          refine settled_setPc hctl rfl ?_
          cases op <;> rfl
  | apply hctl => exact matched_apply hi h.calls hctl (h.fits _ _ _ _ _ hctl)
  | @link t op x rec head hctl =>
      by_cases hhead : (s.versions x).head? = head
      · cases hdelete : op.isDelete with
        | true => exact matched_link hi h.calls hdelete hctl hhead
        | false =>
            cases op with
            | update chunk => exact .inl (settled_link hi hctl hhead)
            | _ => simp [WriteOp.isDelete] at hdelete
      · -- only the swap of a delete without the latch can fail
        have hdelete : op.isDelete = true := by
          have hcurrent := (hi.path.call _ _ _ _ _ hctl).current
          cases op with
          | update chunk => exact absurd (hcurrent rfl (by simp) (by simp)) hhead
          | _ => rfl
        left
        rw [link, if_neg hhead]
        exact settled_setPc hctl (by simp [WritePc.outcome, hdelete]) rfl
  | exit hctl => exact .inl (settled_finishWrite hi hctl)

/-- The whole operations that an orderly run comes to. -/
theorem settled_run (h : AtomicInv path s) (hr : txnSystem.Steps (Orderly path) s s') {k : History}
    (hk : k.db = s.settled) : ∃ k', tableSystem.Steps History.Regular k k' ∧
      k'.db = s'.settled := by
  refine hr.simulates (R := fun s (k : History) => k.db = s.settled)
    (fun s a s' hi hc hs => atomicInv_step hi hc hs) ?_ h hk
  intro s a s' k hi hc hs hk
  rcases settled_step hi hc hs with heq | ⟨b, hb⟩
  · exact ⟨k, .refl, hk.trans heq.symm⟩
  · obtain ⟨hregular, k', hstep, hk'⟩ := hb k hk
    exact ⟨k', .single hregular hstep, hk'⟩

theorem atomicInv_run (hinit : s.Init) (hr : txnSystem.Steps (Orderly path) s s') :
    AtomicInv path s' :=
  hr.invariant (fun _ _ _ hi hc hs => atomicInv_step hi hc hs) (atomicInv_init hinit)

/-- With no call under way there is nothing to settle. -/
theorem settled_of_quiet (h : s.Quiet) : s.settled = s := by
  have hunlinked : ∀ x, s.unlinked x = none := fun x => by simp [unlinked, h.latch]
  have hunmarked : ∀ x, s.unmarked x = false := fun x => by simp [unmarked, h.latch]
  refine Db.ext rfl h.commitLatch.symm (funext fun t => ?_) (funext fun x => ?_) rfl rfl rfl
    (funext fun x => ?_)
    (funext fun tbl => funext fun pid => (h.latch tbl pid).symm)
  · rw [settled_txns]
    rcases h.ctl t with hctl | hctl | ⟨c, hctl⟩ <;> simp [Txn.settled, hctl]
  · simp [hunlinked]
  · simp [hunmarked]

/-- Any stored tuples, with the delete bits clear beyond the last of a page. -/
def InitClear (s : Db) : Prop :=
  s.Init ∧ ∀ x : Slot, s.count x.tbl x.pid ≤ x.idx → s.deletedBit x = false

/-- The whole operations of an orderly run from its beginning. -/
theorem settled_reachable {s₀ : Db} (hinit : s₀.InitClear)
    (hr : txnSystem.Steps (Orderly path) s₀ s) :
    ∃ k, tableSystem.ReachableBy History.Regular k ∧ k.db = s.settled := by
  obtain ⟨k, hk, hdb⟩ :=
    settled_run (k := ⟨s₀, [], s₀⟩) (atomicInv_init hinit.1) hr (settled_init hinit.1).symm
  exact ⟨k, ⟨_, ⟨hinit.1, rfl, rfl, hinit.2⟩, hk⟩, hdb⟩

/-- **Table operations are atomic.** From any moment of an interleaving to any later one, whole
operations lead from the settled database of the one to that of the other; with no call under way
that is the database itself. -/
theorem calls_atomic {s₀ : Db} (hinit : s₀.InitClear) (hr : txnSystem.Steps (Orderly path) s₀ s)
    (hr' : txnSystem.Steps (Orderly path) s s') :
    ∃ k k', tableSystem.ReachableBy History.Regular k ∧ k.db = s.settled ∧
      tableSystem.Steps History.Regular k k' ∧ k'.db = s'.settled ∧ (s'.Quiet → k'.db = s') := by
  obtain ⟨k, hk, hdb⟩ := settled_reachable hinit hr
  obtain ⟨k', hk', hdb'⟩ := settled_run (atomicInv_run hinit.1 hr) hr' hdb
  exact ⟨k, k', hk, hdb, hk', hdb', fun hquiet => hdb'.trans (settled_of_quiet hquiet)⟩

/-- Transaction 0 has written the row of an update, and transaction 1 has tested its head. -/
def updatesUnderWay : List Action :=
  [.begin 0, .spin 0, .begin 1, .spin 1, .write 0 (.update setOne) theTuple, .run 0,
    .write 1 (.update setOne) ⟨2, 1, 0⟩, .run 1, .run 0, .run 1, .run 0]

/-- Both link their records and return. -/
def updatesReturn : List Action := [.run 1, .run 1, .run 1, .run 0, .run 0]

theorem calls_atomic_updates :
    ∃ s s' : Db, txnSystem.exec (Orderly fun _ => true) oneTuple updatesUnderWay = some s ∧
      txnSystem.exec (Orderly fun _ => true) s updatesReturn = some s' ∧
      ∃ k k', tableSystem.ReachableBy History.Regular k ∧ tableSystem.Steps History.Regular k k' ∧
        (s.versions theTuple, k.db.versions theTuple) = ([], [⟨0, 0⟩]) ∧
        (k.db.versions ⟨2, 1, 0⟩, k'.db.versions ⟨2, 1, 0⟩) = ([], [⟨1, 0⟩]) := by
  let s := (txnSystem.exec (Orderly fun _ => true) oneTuple updatesUnderWay).get (by decide +kernel)
  have hs : txnSystem.exec (Orderly fun _ => true) oneTuple updatesUnderWay = some s :=
    (Option.some_get _).symm
  let s' := (txnSystem.exec (Orderly fun _ => true) s updatesReturn).get (by decide +kernel)
  have hs' : txnSystem.exec (Orderly fun _ => true) s updatesReturn = some s' :=
    (Option.some_get _).symm
  obtain ⟨k, k', hk, hdb, hkk', hdb', -⟩ :=
    calls_atomic ⟨oneTuple_init, fun _ _ => rfl⟩ (.of_exec _ hs) (.of_exec _ hs')
  refine ⟨s, s', hs, hs', k, k', hk, hkk', ?_, ?_⟩
  · rw [hdb]
    decide +kernel
  · rw [hdb, hdb']
    decide +kernel

end Db

end Db7
