import Db7.Txn.UpdateLoop
import Db7.Txn.WriteConflict

/-!
# The lifetime of a tuple

What a record in a version chain says about its tuple stays said: the record keeps its
type and its place (`Stepped.kind_eq`, `Stepped.mem_versions`). One record of a chain is
that of the insert (`TupleInv`).

A tuple is live at a timestamp between the commit of its insert and that of a delete
(`LiveAt`). If the transaction that inserts `y` has deleted `x`, or has begun after a
delete of `x` was committed, the two are never live together (`Removed.not_liveAt`).
-/

namespace Db7

open Lib Function

namespace Db

/-- The types of the records of a transaction. -/
def types (s : Db) (t : TxnId) : List DeltaRecordType := (s.txns t).undo.map UndoRecord.type

/-- The type of the record behind a pointer. -/
def kind (s : Db) (p : RecPtr) : Option DeltaRecordType := (s.record p).map UndoRecord.type

/-- `t` has inserted the tuple. -/
def InsertedBy (s : Db) (t : TxnId) (x : Slot) : Prop :=
  ∃ p ∈ s.versions x, p.owner = t ∧ s.kind p = some .insert

instance (s : Db) (t : TxnId) (x : Slot) : Decidable (s.InsertedBy t x) :=
  inferInstanceAs (Decidable (∃ p ∈ s.versions x, _))

/-- A delete of the tuple is `t`'s own or was committed at or before its start. -/
def Removed (s : Db) (t : TxnId) (x : Slot) : Prop :=
  ∃ p ∈ s.versions x, s.kind p = some .delete ∧ (p.owner = t ∨ s.CommittedBy (s.txns t).start p)

/-- The tuple was inserted by a commit at or before `stamp`, and not deleted by one. -/
def LiveAt (s : Db) (stamp : Nat) (x : Slot) : Prop :=
  (∃ p ∈ s.versions x, s.kind p = some .insert ∧ ∃ c ∈ (s.txns p.owner).commitTime, c ≤ stamp) ∧
    ∀ p ∈ s.versions x, s.kind p = some .delete → ∀ c ∈ (s.txns p.owner).commitTime, stamp < c

instance (s : Db) (stamp : Nat) (x : Slot) : Decidable (s.LiveAt stamp x) :=
  inferInstanceAs (Decidable (_ ∧ _))

/-- The version chains, seen from their tuples. -/
structure TupleInv (s : Db) : Prop where
  allocated : ∀ x, ∀ p ∈ s.versions x, x.idx < s.count x.tbl x.pid
  oneInsert : ∀ x, ∀ p ∈ s.versions x, ∀ q ∈ s.versions x,
    s.kind p = some .insert → s.kind q = some .insert → p = q
  writing : ∀ t op slot rec pc, (s.txns t).ctl = .writing op slot rec pc →
    s.kind ⟨t, rec⟩ ≠ some .insert

variable {s s' : Db} {a : Action} {t u : TxnId} {x y : Slot} {p : RecPtr}

theorem kind_eq_types (s : Db) (p : RecPtr) : s.kind p = (s.types p.owner)[p.idx]? := by
  simp [kind, record, types]

theorem map_type_modify {l : List UndoRecord} {i : Nat} {f : UndoRecord → UndoRecord}
    (hf : ∀ r, (f r).type = r.type) :
    (l.modify i f).map UndoRecord.type = l.map UndoRecord.type := by
  refine List.ext_getElem? fun j => ?_
  rw [List.getElem?_map, List.getElem?_map, List.getElem?_modify]
  cases l[j]? with
  | none => rfl
  | some r =>
      show some (if i = j then f r else r).type = some r.type
      split
      · rw [hf r]
      · rfl

/-- Records are added at the end, and one that is in no chain is invalidated. -/
theorem Stepped.types_cases {bound : Nat} (hc : CommitInv bound s)
    (h : Stepped s a s') (u : TxnId) :
    (∃ new, s'.types u = s.types u ++ new) ∨
      ∃ op slot rec head, (s.txns u).ctl = .writing op slot rec (.check head) ∧
        s'.types u = (s.types u).modify rec fun _ => .invalid := by
  by_cases hu : u = a.txn
  · subst hu
    have hsame : (s'.txns a.txn).undo.map UndoRecord.type = s.types a.txn →
        ∃ new, s'.types a.txn = s.types a.txn ++ new := fun h => ⟨[], by simpa [types] using h⟩
    cases h with
    | @begin t hctl =>
        have hnil := (hc.ok t).fresh (.inl hctl)
        exact .inl (hsame (by simp [Action.txn, types, hnil]))
    | @spin t _ =>
        refine .inl (hsame ?_)
        unfold tryLatch
        split <;> simp [Action.txn, types]
    | @insert t tbl pid chunk _ _ =>
        exact .inl ⟨[.insert],
          by simp [Action.txn, types, insertTuple, UndoRecord.initializeInsert]⟩
    | @start t op slot _ _ _ =>
        exact .inl ⟨[(newRecord (s.txns t).finish slot op).type],
          by simp [Action.txn, types, startWrite]⟩
    | lock _ => exact .inl (hsame (by simp [Action.txn, types]))
    | checkOut _ => exact .inl (hsame (by simp [Action.txn, types]))
    | restamp _ _ =>
        refine .inl (hsame ?_)
        simp only [Action.txn, types, restampOne, setTxn_txns, update_self]
        exact map_type_modify fun _ => rfl
    | unlock _ _ => exact .inl (hsame (by simp [Action.txn, types]))
    | load _ => exact .inl (hsame (by simp [Action.txn, types, setPc]))
    | @check t op slot rec head hctl =>
        simp only [checkHead] at hsame ⊢
        split at hsame <;> rename_i hb
        · refine .inr ⟨op, slot, rec, head, hctl, ?_⟩
          rw [if_pos hb]
          refine List.ext_getElem? fun j => ?_
          simp only [Action.txn, types, setPc, setTxn_txns, update_self, List.getElem?_map,
            List.getElem?_modify]
          cases (s.txns t).undo[j]? with
          | none => rfl
          | some r =>
              show some (if rec = j then r.invalidate else r).type =
                some (if rec = j then _ else r.type)
              split <;> rfl
        · rw [if_neg hb]
          exact .inl (hsame (by simp [Action.txn, types, setPc]))
    | apply _ =>
        refine .inl (hsame ?_)
        simp only [Action.txn, types, applyUpdate, setPc, setTxn_txns, update_self]
        exact map_type_modify fun _ => rfl
    | link _ =>
        refine .inl (hsame ?_)
        unfold Db.link
        split <;> simp [Action.txn, types, setPc]
    | exit _ => exact .inl (hsame (by simp [Action.txn, types, finishWrite]))
  · refine .inl ⟨[], ?_⟩
    rw [types, h.txns_of_ne hu]
    simp [types]

/-- A record keeps its type, unless its write has just tested a head. -/
theorem Stepped.kind_eq_of_valid {bound : Nat} (hc : CommitInv bound s) (h : Stepped s a s')
    (hp : s.Valid p)
    (hne : ∀ op slot head, (s.txns p.owner).ctl ≠ .writing op slot p.idx (.check head)) :
    s'.kind p = s.kind p := by
  rw [kind_eq_types, kind_eq_types]
  rcases h.types_cases hc p.owner with ⟨new, hnew⟩ | ⟨op, slot, rec, head, hctl, hmodify⟩
  · rw [hnew, List.getElem?_append_left (by simpa [types, Valid] using hp)]
  · have hrec : rec ≠ p.idx := by
      rintro rfl
      exact hne op slot head hctl
    rw [hmodify, List.getElem?_modify]
    simp [hrec]

/-- A record in a chain keeps its type. -/
theorem Stepped.kind_eq {bound : Nat} (hc : CommitInv bound s) (hi : ChainInv s)
    (h : Stepped s a s') (hp : p ∈ s.versions x) : s'.kind p = s.kind p := by
  refine h.kind_eq_of_valid hc (hi.valid x p hp) fun op slot head hctl => ?_
  -- the record of a write that tests a head has not been linked
  exact (hi.loop _ _ _ _ _ hctl).fresh (by simp) x hp

/-- The chains change by an insert and by a swap. -/
theorem Stepped.versions_cases (h : Stepped s a s') : s'.versions = s.versions ∨
    (∃ t tbl pid chunk, a = .insert t tbl pid chunk ∧
      s'.versions = update s.versions ⟨tbl, pid, s.count tbl pid⟩ [⟨t, (s.txns t).undo.length⟩]) ∨
    ∃ t op slot rec head, (s.txns t).ctl = .writing op slot rec (.link head) ∧
      s'.versions = update s.versions slot (⟨t, rec⟩ :: s.versions slot) := by
  cases h with
  | @insert t tbl pid chunk _ _ => exact .inr (.inl ⟨t, tbl, pid, chunk, rfl, rfl⟩)
  | @link t op slot rec head hctl =>
      unfold Db.link
      split
      · exact .inr (.inr ⟨t, op, slot, rec, head, hctl, rfl⟩)
      · exact .inl rfl
  | spin _ =>
      unfold tryLatch
      split <;> exact .inl rfl
  | check _ =>
      simp only [checkHead]
      split <;> exact .inl rfl
  | _ => exact .inl rfl

/-- A record stays in its chain. -/
theorem Stepped.mem_versions (hi : TupleInv s) (h : Stepped s a s') (hp : p ∈ s.versions x) :
    p ∈ s'.versions x := by
  rcases h.versions_cases with heq | ⟨t, tbl, pid, chunk, -, heq⟩ | ⟨t, op, slot, rec,
    head, -, heq⟩ <;>
    rw [heq]
  · exact hp
  · have hne : x ≠ ⟨tbl, pid, s.count tbl pid⟩ := by
      rintro rfl
      exact lt_irrefl _ (hi.allocated _ p hp)
    rwa [update_of_ne hne]
  · by_cases hx : x = slot
    · subst hx
      rw [update_self]
      exact List.mem_cons_of_mem _ hp
    · rwa [update_of_ne hx]

/-! ## Every step keeps the chains of the tuples -/

/-- The record of a write is not that of an insert. -/
theorem kind_writing {bound : Nat} (hc : CommitInv bound s) (hi : ChainInv s) (ht : TupleInv s)
    (h : Stepped s a s') {op : WriteOp} {rec : Nat} {pc : WritePc}
    (hctl : (s'.txns t).ctl = .writing op x rec pc) :
    s'.kind ⟨t, rec⟩ ≠ some .insert := by
  by_cases htxn : t = a.txn
  · subst htxn
    -- the call has made its record now, or is at the same record as before
    have hcases : (∃ pc', (s.txns a.txn).ctl = .writing op x rec pc') ∨
        s'.txns a.txn = (s.startWrite a.txn op x).txns a.txn ∧
          rec = (s.txns a.txn).undo.length := by
      cases h with
      | spin hold =>
          unfold tryLatch at hctl
          split at hctl <;> simp [Action.txn, hold] at hctl
      | insert hold _ => simp [Action.txn, insertTuple, hold] at hctl
      | @start t op' slot' _ _ _ =>
          obtain ⟨rfl, rfl, rfl, -⟩ : op' = op ∧ slot' = x ∧ (s.txns t).undo.length = rec ∧ _ := by
            simpa [Action.txn, startWrite] using hctl
          exact .inr ⟨rfl, rfl⟩
      | load hold =>
          simp only [Action.txn, setPc, setTxn_txns, update_self, Ctl.writing.injEq] at hctl
          obtain ⟨rfl, rfl, rfl, -⟩ := hctl
          exact .inl ⟨_, hold⟩
      | @check t op' slot' rec' head hold =>
          simp only [checkHead] at hctl
          split at hctl <;>
          · simp only [Action.txn, setPc, setTxn_txns, update_self, Ctl.writing.injEq] at hctl
            obtain ⟨rfl, rfl, rfl, -⟩ := hctl
            exact .inl ⟨_, hold⟩
      | apply hold =>
          simp only [Action.txn, applyUpdate, setPc, setTxn_txns, update_self,
            Ctl.writing.injEq] at hctl
          obtain ⟨rfl, rfl, rfl, -⟩ := hctl
          exact .inl ⟨_, hold⟩
      | link hold =>
          unfold Db.link at hctl
          split at hctl <;>
          · simp only [Action.txn, setPc, setTxn_txns, update_self, Ctl.writing.injEq] at hctl
            obtain ⟨rfl, rfl, rfl, -⟩ := hctl
            exact .inl ⟨_, hold⟩
      | _ => simp [Action.txn, finishWrite, restampOne] at hctl
    rcases hcases with ⟨pc', hold⟩ | ⟨heq, rfl⟩
    · have hne := ht.writing _ _ _ _ _ hold
      have hlast := (hi.loop _ _ _ _ _ hold).last
      rw [kind_eq_types] at hne ⊢
      rcases h.types_cases hc a.txn with ⟨new, hnew⟩ | ⟨_, _, rec', _, hcheck, hmodify⟩
      · have hlt : rec < (s.types a.txn).length := by
          simp only [types, List.length_map]
          omega
        rwa [hnew, List.getElem?_append_left hlt]
      · obtain ⟨-, -, rfl, -⟩ := Ctl.writing.inj (hold.symm.trans hcheck)
        rw [hmodify, List.getElem?_modify]
        cases (s.types a.txn)[rec]? <;> simp
    · rw [kind, record, heq]
      cases op <;> simp [startWrite, newRecord, UndoRecord.initializeUpdate,
        UndoRecord.initializeDelete]
  · rw [h.txns_of_ne htxn] at hctl
    rw [kind, record, h.txns_of_ne htxn]
    exact ht.writing t op x rec pc hctl

theorem tupleInv_init (h : s.Init) : TupleInv s := by
  obtain ⟨-, -, htxns, hversions, -⟩ := h
  refine ⟨fun x p hp => ?_, fun x p hp => ?_, fun t op slot rec pc hctl => ?_⟩
  · simp [hversions] at hp
  · simp [hversions] at hp
  · simp [htxns] at hctl

theorem tupleInv_step {bound : Nat} (hc : CommitInv bound s) (hi : ChainInv s) (ht : TupleInv s)
    (h : Stepped s a s') : TupleInv s' := by
  have hkeep : ∀ x, ∀ p ∈ s.versions x, s'.kind p = s.kind p := fun x p hp => h.kind_eq hc hi hp
  refine ⟨fun x p hp => ?_, fun x p hp q hq hkp hkq => ?_, fun t op x rec pc =>
    kind_writing hc hi ht h⟩
  · have hold : p ∈ s.versions x → x.idx < s'.count x.tbl x.pid := fun hp =>
      lt_of_lt_of_le (ht.allocated x p hp) (h.count_le _ _)
    rcases h.versions_cases with heq | ⟨t, tbl, pid, chunk, ha, heq⟩ | ⟨t, op, slot, rec,
      head, hctl, heq⟩ <;>
      rw [heq] at hp
    · exact hold hp
    · by_cases hx : x = ⟨tbl, pid, s.count tbl pid⟩
      · subst hx ha
        cases h with
        | insert _ _ => simp [insertTuple]
      · rw [update_of_ne hx] at hp
        exact hold hp
    · by_cases hx : x = slot
      · subst hx
        exact lt_of_lt_of_le (hi.loop _ _ _ _ _ hctl).allocated (h.count_le _ _)
      · rw [update_of_ne hx] at hp
        exact hold hp
  · have hold : p ∈ s.versions x → q ∈ s.versions x → p = q := fun hp hq =>
      ht.oneInsert x p hp q hq (hkeep x p hp ▸ hkp) (hkeep x q hq ▸ hkq)
    rcases h.versions_cases with heq | ⟨t, tbl, pid, chunk, -, heq⟩ | ⟨t, op, slot, rec,
      head, hctl, heq⟩ <;>
      rw [heq] at hp hq
    · exact hold hp hq
    · by_cases hx : x = ⟨tbl, pid, s.count tbl pid⟩
      · subst hx
        rw [update_self, List.mem_singleton] at hp hq
        rw [hp, hq]
      · rw [update_of_ne hx] at hp hq
        exact hold hp hq
    · by_cases hx : x = slot
      · subst hx
        -- the record that is swapped in is no insert
        have hnew : s'.kind ⟨t, rec⟩ ≠ some .insert := by
          have hlast := (hi.loop _ _ _ _ _ hctl).last
          rw [h.kind_eq_of_valid hc (by simp only [Valid]; omega) (by simp [hctl])]
          exact ht.writing _ _ _ _ _ hctl
        rw [update_self, List.mem_cons] at hp hq
        rcases hp with rfl | hp
        · exact absurd hkp hnew
        · rcases hq with rfl | hq
          · exact absurd hkq hnew
          · exact hold hp hq
      · rw [update_of_ne hx] at hp hq
        exact hold hp hq

theorem tupleInv_reachable (hr : txnSystem.ReachableBy (HandsOutBelow signBit) s) : TupleInv s := by
  have hb : signBit < 2 ^ 64 := by decide
  obtain ⟨s₀, hinit, hrun⟩ := hr
  have hall : (CommitInv signBit s ∧ ChainInv s) ∧ TupleInv s :=
    hrun.invariant (P := fun s => (CommitInv signBit s ∧ ChainInv s) ∧ TupleInv s)
      (fun s a s' h hc hs =>
        ⟨⟨commitInv_step hb h.1.1 hc hs, chainInv_step h.1.1 h.1.2 (stepped_of_step hs)⟩,
        tupleInv_step h.1.1 h.1.2 h.2 (stepped_of_step hs)⟩)
      ⟨⟨commitInv_init hinit, chainInv_init hinit⟩, tupleInv_init hinit⟩
  exact hall.2

/-! ## What stays true of a tuple -/

/-- One transaction has inserted a tuple. -/
theorem InsertedBy.owner (ht : TupleInv s) (h : s.InsertedBy t x) (h' : s.InsertedBy u x) :
    t = u := by
  obtain ⟨p, hp, rfl, hkp⟩ := h
  obtain ⟨q, hq, rfl, hkq⟩ := h'
  rw [ht.oneInsert x p hp q hq hkp hkq]

theorem InsertedBy.allocated (ht : TupleInv s) (h : s.InsertedBy t x) :
    x.idx < s.count x.tbl x.pid := by
  obtain ⟨p, hp, -, -⟩ := h
  exact ht.allocated x p hp

/-- A transaction that has inserted a tuple has records. -/
theorem InsertedBy.pos (hi : ChainInv s) (h : s.InsertedBy t x) : 0 < (s.txns t).undo.length := by
  obtain ⟨p, hp, rfl, -⟩ := h
  exact Nat.zero_lt_of_lt (hi.valid x p hp)

theorem InsertedBy.step {bound : Nat} (hc : CommitInv bound s) (hi : ChainInv s) (ht : TupleInv s)
    (hs : Stepped s a s') (h : s.InsertedBy t x) : s'.InsertedBy t x := by
  obtain ⟨p, hp, ho, hk⟩ := h
  exact ⟨p, hs.mem_versions ht hp, ho, (hs.kind_eq hc hi hp).trans hk⟩

/-- `Table::Insert` makes the tuple. -/
theorem insertedBy_insertTuple (s : Db) (t : TxnId) (tbl pid : Nat) (chunk : DataChunk) :
    (s.insertTuple t tbl pid chunk).InsertedBy t ⟨tbl, pid, s.count tbl pid⟩ :=
  ⟨⟨t, (s.txns t).undo.length⟩, by simp [insertTuple], rfl, by simp [kind, record, insertTuple,
    UndoRecord.initializeInsert]⟩

theorem Removed.step (hc : CommitInv signBit s) (hi : ChainInv s) (ht : TupleInv s)
    (hs : Stepped s a s')
    (hpos : 0 < (s.txns t).undo.length) (h : s.Removed t x) : s'.Removed t x := by
  have ev := evolves_of_step hc hs
  obtain ⟨p, hp, hk, hby⟩ := h
  refine ⟨p, hs.mem_versions ht hp, (hs.kind_eq hc hi hp).trans hk, hby.imp_right fun hold => ?_⟩
  rw [ev.start t hpos]
  exact ev.committedBy (hi.valid x p hp) hold

/-- **The lifetimes of the two tuples do not meet.** -/
theorem Removed.not_liveAt (hc : CommitInv signBit s) (hi : ChainInv s) (ht : TupleInv s)
    (hx : s.Removed t x) (hy : s.InsertedBy t y) {stamp : Nat} (hlive : s.LiveAt stamp y) :
    ¬ s.LiveAt stamp x := by
  obtain ⟨⟨p, hp, hkp, c, hcommit, hle⟩, -⟩ := hlive
  obtain rfl : p.owner = t := InsertedBy.owner ht ⟨p, hp, rfl, hkp⟩ hy
  obtain ⟨d, hd, hkd, hby⟩ := hx
  rintro ⟨-, hdeleted⟩
  rcases hby with hown | ⟨hcommitted, hstart⟩
  · -- deleted and inserted by one commit
    have hlt := hdeleted d hd hkd c (hown ▸ hcommit)
    omega
  · have hdcommit := commitTime_of_isCommitted hc (begun_of_valid hc (hi.valid x d hd)) hcommitted
    have hlt := hdeleted d hd hkd _ hdcommit
    have hbegan := (hc.ok p.owner).commit c hcommit
    have hle' : (s.txns d.owner).stampAt d.idx ≤ (s.txns p.owner).start := hstart
    omega

end Db

end Db7
