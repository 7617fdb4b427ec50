import Db7.Access.Atomicity

/-!
# Reads while others write

`Table::Select` holds the page's latch for reading over `SelectIntoChunk`: it copies the row, loads
the head of the version chain, and goes down the chain one version at a time (`selectStep`).
Meanwhile other transactions begin, commit and restamp the versions that it walks over, and
`DeleteUndoRaw`, which takes no latch, puts new ones on top.

* **versions** (`Alike`): a version says the same to a reader under way before and after a step of
  another transaction, and in the settled database;
* **read** (`readInv_step`): so the answer is the one of `SelectIntoChunk` at the moment at which
  the head was loaded;
* **run** (`select_reads_snapshot`): that is what the transaction reads in the snapshot-isolation
  store.
-/

namespace Db7

open Lib Function

namespace Db

variable {path : Slot → Bool} {s s' : Db} {a : Action} {t u : TxnId} {x : Slot} {p : RecPtr}
  {r : UndoRecord}

/-! ## What a version says to a reader -/

/-- The type of the record behind a pointer, and its before-image. -/
def content (s : Db) (p : RecPtr) : Option (DeltaRecordType × DataChunk) :=
  (s.record p).map fun r => (r.type, r.delta)

/-- A record in a chain keeps its before-image. -/
theorem Stepped.content_eq {bound : Nat} (hc : CommitInv bound s) (hi : ChainInv s)
    (hs : Stepped s a s') (hp : p ∈ s.versions x) : s'.content p = s.content p := by
  have hvalid := hi.valid x p hp
  by_cases hown : p.owner = a.txn
  · -- a write changes its own record only, which is in no chain yet
    have hother : ∀ {op slot rec pc}, (s.txns a.txn).ctl = .writing op slot rec pc →
        pc ≠ .exit true → rec ≠ p.idx := by
      rintro op slot rec pc hctl hexit rfl
      exact (hi.loop _ _ _ _ _ hctl).fresh hexit x (hown ▸ hp)
    obtain ⟨owner, idx⟩ := p
    subst hown
    have hsame : (s'.txns a.txn).undo = (s.txns a.txn).undo → s'.content ⟨a.txn, idx⟩ =
        s.content ⟨a.txn, idx⟩ := by
      intro hundo
      simp only [content, record, hundo]
    have happend : ∀ {new}, (s'.txns a.txn).undo = (s.txns a.txn).undo ++ new →
        s'.content ⟨a.txn, idx⟩ = s.content ⟨a.txn, idx⟩ := by
      intro new hundo
      simp only [content, record, hundo, List.getElem?_append_left hvalid]
    have hmodify : ∀ {i f}, (s'.txns a.txn).undo = (s.txns a.txn).undo.modify i f →
        (i = idx → ∀ r : UndoRecord, (f r).type = r.type ∧ (f r).delta = r.delta) →
        s'.content ⟨a.txn, idx⟩ = s.content ⟨a.txn, idx⟩ := by
      intro i f hundo hf
      simp only [content, record, hundo, List.getElem?_modify]
      cases (s.txns a.txn).undo[idx]? with
      | none => rfl
      | some r =>
          by_cases hi : i = idx
          · simp [hi, hf hi r]
          · simp [hi]
    cases hs with
    | @begin t hctl =>
        have hnil := (hc.ok t).fresh (.inl hctl)
        simp [Valid, Action.txn, hnil] at hvalid
    | spin _ =>
        refine hsame ?_
        unfold tryLatch
        split <;> simp [Action.txn]
    | insert _ _ => exact happend (by simp [Action.txn, insertTuple]; rfl)
    | start _ _ _ => exact happend (by simp [Action.txn, startWrite]; rfl)
    | @restamp t c i _ _ =>
        exact hmodify (i := i) (f := fun r => r.setTimestamp c) (by simp [Action.txn, restampOne])
          fun _ r => ⟨rfl, rfl⟩
    | @check t op slot rec head hctl =>
        simp only [checkHead] at hsame hmodify ⊢
        split at hsame <;> rename_i hb
        · simp only [if_pos hb] at hmodify ⊢
          exact hmodify (by simp [Action.txn, setPc]; rfl) fun h => absurd h (hother hctl (by simp))
        · simp only [if_neg hb]
          exact hsame (by simp [Action.txn, setPc])
    | @apply t chunk slot rec head hctl =>
        exact hmodify (by simp [Action.txn, applyUpdate, setPc]; rfl) fun h =>
          absurd h (hother hctl (by simp))
    | link _ =>
        refine hsame ?_
        unfold Db.link
        split <;> simp [Action.txn, setPc]
    | _ => exact hsame (by simp [Action.txn, setPc, finishWrite])
  · simp only [content, record, hs.txns_of_ne hown]

/-- A version is newer than the start of a transaction unless it is in its snapshot, or its own. -/
theorem isNewerThan_iff (hc : CommitInv signBit s) (h : Snapshots s)
    (hrun : (s.txns t).running = true) (hr : s.record p = some r) :
    isNewerThan r.timestamp (s.txns t).start = true ↔ p.owner = t ∨ ¬ s.InSnapshot t p.owner := by
  have hvalid : s.Valid p := (List.getElem?_eq_some_iff.mp hr).1
  have hbegun : (s.txns t).ctl ≠ .idle := (Txn.ctl_of_running hrun).1
  have hstart : (s.txns t).start < signBit :=
    lt_of_lt_of_le (hc.below (t, false) _ (by simp [handedOut, hbegun])) hc.time_le
  rw [record_timestamp hc hr, isNewerThan, decide_eq_true_iff]
  by_cases hown : p.owner = t
  · have hstamp : s.stamp p = (s.txns t).finish := by rw [stamp, hown, Txn.stampAt_of_running hrun]
    simp only [hown, true_or, iff_true, hstamp, (hc.ok t).finish hbegun, finishTimeOf_eq hstart]
    simp [signBit]
  · rw [← inSnapshot_iff hc h hrun hvalid]
    simp only [hown, false_or, CommittedBy, not_and, Nat.not_le]
    refine ⟨fun hlt _ => hlt, fun hlt => ?_⟩
    by_contra hle
    have hle := Nat.le_of_not_lt hle
    exact absurd (hlt (isCommitted_of_lt (by omega))) (by omega)

/-- A transaction knows its own versions by its finish time. -/
theorem timestamp_eq_finish_iff (hc : CommitInv signBit s) (hrun : (s.txns t).running = true)
    (hr : s.record p = some r) : r.timestamp = (s.txns t).finish ↔ p.owner = t := by
  have hvalid : s.Valid p := (List.getElem?_eq_some_iff.mp hr).1
  have hbegun : (s.txns t).ctl ≠ .idle := (Txn.ctl_of_running hrun).1
  have hstart : (s.txns t).start < signBit :=
    lt_of_lt_of_le (hc.below (t, false) _ (by simp [handedOut, hbegun])) hc.time_le
  rw [record_timestamp hc hr]
  refine ⟨fun heq => finish_inj hc (begun_of_valid hc hvalid) hbegun ?_, ?_⟩
  · rw [← heq, stamp_of_not_isCommitted hc]
    rw [heq, (hc.ok t).finish hbegun, isCommitted_finishTimeOf hstart]
  · rintro rfl
    rw [stamp, Txn.stampAt_of_running hrun]

/-- The version says the same to a reader with these times. -/
structure Alike (start finish : Nat) (r r' : UndoRecord) : Prop where
  type : r'.type = r.type
  delta : r'.delta = r.delta
  newer : isNewerThan r'.timestamp start = isNewerThan r.timestamp start
  own : r'.timestamp = finish ↔ r.timestamp = finish

/-- Two moments that a transaction under way cannot tell apart at a version. -/
structure Unmoved (s s' : Db) (t : TxnId) (x : Slot) : Prop where
  start : (s'.txns t).start = (s.txns t).start
  finish : (s'.txns t).finish = (s.txns t).finish
  content : ∀ p ∈ s.versions x, s'.content p = s.content p
  snapshot : ∀ u, s'.InSnapshot t u ↔ s.InSnapshot t u

/-- What a reader needs to know of a moment. -/
structure Readable (s : Db) (t : TxnId) : Prop where
  commit : CommitInv signBit s
  snapshots : Snapshots s
  running : (s.txns t).running = true

theorem alike_of_unmoved (h : Readable s t) (h' : Readable s' t) (hu : Unmoved s s' t x)
    (hp : p ∈ s.versions x) (hr : s.record p = some r) :
    ∃ r', s'.record p = some r' ∧ Alike (s.txns t).start (s.txns t).finish r r' := by
  have hcontent := hu.content p hp
  simp only [content, hr, Option.map_some, Option.map_eq_some_iff, Prod.mk.injEq] at hcontent
  obtain ⟨r', hr', htype, hdelta⟩ := hcontent
  refine ⟨r', hr', htype, hdelta, ?_, ?_⟩
  · rw [Bool.eq_iff_iff, isNewerThan_iff h.commit h.snapshots h.running hr, ← hu.start,
      isNewerThan_iff h'.commit h'.snapshots h'.running hr', hu.snapshot]
  · rw [timestamp_eq_finish_iff h.commit h.running hr, ← hu.finish,
      timestamp_eq_finish_iff h'.commit h'.running hr']

/-- Versions that say the same are walked over alike. -/
theorem selectWalk_congr {start finish : Nat} {isDeleted : Bool} {l l' : List UndoRecord}
    {chunk : DataChunk} (h : List.Forall₂ (Alike start finish) l l') :
    selectWalk start isDeleted l' chunk = selectWalk start isDeleted l chunk := by
  induction h generalizing chunk with
  | nil => rfl
  | cons hr _ ih => simp only [selectWalk, hr.type, hr.delta, hr.newer, ih]

theorem forall₂_filterMap {R : UndoRecord → UndoRecord → Prop} {f f' : RecPtr → Option UndoRecord}
    {l : List RecPtr} (h : ∀ p ∈ l, ∃ r r', f p = some r ∧ f' p = some r' ∧ R r r') :
    List.Forall₂ R (l.filterMap f) (l.filterMap f') := by
  induction l with
  | nil => exact .nil
  | cons p l ih =>
      obtain ⟨r, r', hr, hr', hR⟩ := h p List.mem_cons_self
      rw [List.filterMap_cons_some hr, List.filterMap_cons_some hr']
      exact .cons hR (ih fun q hq => h q (List.mem_cons_of_mem _ hq))

theorem alike_filterMap (h : Readable s t) (h' : Readable s' t) (hi : ChainInv s)
    (hu : Unmoved s s' t x) {l : List RecPtr} (hl : ∀ p ∈ l, p ∈ s.versions x) :
    List.Forall₂ (Alike (s.txns t).start (s.txns t).finish) (l.filterMap s.record)
    (l.filterMap s'.record) := by
  refine forall₂_filterMap fun p hp => ?_
  obtain ⟨r, hr⟩ := exists_record (hi.valid x p (hl p hp))
  obtain ⟨r', hr', halike⟩ := alike_of_unmoved h h' hu (hl p hp) hr
  exact ⟨r, r', hr, hr', halike⟩

/-- The same versions and the same row are read alike. -/
theorem selectIntoChunk_congr (h : Readable s t) (h' : Readable s' t) (hi : ChainInv s)
    (hu : Unmoved s s' t x)
    (hversions : s'.versions x = s.versions x) (hschema : s'.schema = s.schema)
    (hrows : s'.rows x = s.rows x) (hbit : s'.deletedBit x = s.deletedBit x) (chunk : DataChunk) :
    s'.selectIntoChunk (s'.txns t) x chunk = s.selectIntoChunk (s.txns t) x chunk := by
  have halike := alike_filterMap h h' hi hu fun p hp => hp
  simp only [selectIntoChunk, chain, hversions, hschema, hrows, hbit, hu.start, hu.finish]
  generalize (s.versions x).filterMap s.record = l at halike ⊢
  generalize (s.versions x).filterMap s'.record = l' at halike ⊢
  cases halike with
  | nil => rfl
  | cons hr hrest =>
      simp only [selectWalk_congr (.cons hr hrest), hr.own, UndoRecord.isDeleted, hr.type]

/-! ## `Select`, step by step -/

/-- The chain from a version down. -/
def below (s : Db) (x : Slot) (p : RecPtr) : List RecPtr :=
  (s.versions x).dropWhile fun q => decide (q ≠ p)

/-- `GetNext`. -/
def next (s : Db) (x : Slot) (p : RecPtr) : Option RecPtr := (s.below x p).tail.head?

end Db

/-- `Select`: the latch taken for reading, the row copied, the head of the chain loaded, a version
of the loop, and the answer, with the latch given back. -/
inductive SelectPc
  | locked (chunk : DataChunk)
  | filled (chunk : DataChunk)
  | head (p : RecPtr) (chunk : DataChunk)
  | walk (isDeleted : Bool) (version : Option RecPtr) (chunk : DataChunk)
  | done (status : RowStatus) (chunk : DataChunk)
  deriving DecidableEq, Repr

namespace SelectPc

/-- The reader holds the latch. -/
def underWay : SelectPc → Bool
  | done _ _ => false
  | locked _ | filled _ | head _ _ | walk _ _ _ => true

/-- The version that the reader looks at. -/
def version : SelectPc → Option RecPtr
  | head p _ => some p
  | walk _ version _ => version
  | locked _ | filled _ | done _ _ => none

end SelectPc

namespace Db

/-- One access of `SelectIntoChunk`; `none` would be a pointer to no record. -/
def selectStep (s : Db) (y : Txn) (x : Slot) : SelectPc → Option SelectPc
  | .locked chunk => some (.filled (readSingleIntoChunk (s.schema x.tbl) chunk (s.rows x)))
  | .filled chunk =>
      match (s.versions x).head? with
      | none => some (.done (rowStatus (s.deletedBit x)) chunk)
      | some p => some (.head p chunk)
  | .head p chunk => (s.record p).map fun r =>
      if r.timestamp = y.finish then .done (rowStatus r.isDeleted) chunk
        else .walk r.isDeleted (some p) chunk
  | .walk isDeleted none chunk => some (.done (rowStatus isDeleted) chunk)
  | .walk isDeleted (some p) chunk => (s.record p).map fun r =>
      if isNewerThan r.timestamp y.start then
        match r.type with
        | .update => .walk isDeleted (s.next x p) (merge chunk r.delta)
        | .insert => .done .notVisible chunk
        | .delete | .invalid => .walk isDeleted (s.next x p) chunk
      else .done (rowStatus isDeleted) chunk
  | .done _ _ => none

/-- The page's latch is taken for writing, or the tuple's page is filled. -/
def takesLatch (x : Slot) : Action → Bool
  | .insert _ tbl pid _ => tbl = x.tbl && pid = x.pid
  | .write _ op slot => latched op && (slot.tbl = x.tbl && slot.pid = x.pid)
  | .begin _ | .spin _ | .commit _ | .run _ => false

end Db

/-- The database and a reader. -/
structure Reading where
  db : Db
  pc : SelectPc

inductive ReadAction
  | db (a : Action)
  | read

namespace Reading

variable (t : TxnId) (x : Slot)

/-- The other transactions go on, but for taking the page's latch while it is held for reading. -/
def step (r : Reading) : ReadAction → Option Reading
  | .db a =>
      if a.txn = t ∨ r.pc.underWay && Db.takesLatch x a then none
        else (r.db.step a).map fun s => ⟨s, r.pc⟩
  | .read => (r.db.selectStep (r.db.txns t) x r.pc).map fun pc => ⟨r.db, pc⟩

/-- A call of `Select` that has taken its latch. -/
def Init (r : Reading) : Prop :=
  (r.db.txns t).ctl = .active ∧ r.db.latch x.tbl x.pid = none ∧ ∃ chunk, r.pc = .locked chunk

/-- The steps of the others are orderly. -/
def Orderly (path : Slot → Bool) (r : Reading) : ReadAction → Prop
  | .db a => Db.Orderly path r.db a
  | .read => True

instance (path : Slot → Bool) (r : Reading) : (a : ReadAction) → Decidable (r.Orderly path a)
  | .db a => inferInstanceAs (Decidable (Db.Orderly path r.db a))
  | .read => inferInstanceAs (Decidable True)

end Reading

/-- `Select` by `t` of one tuple while the other transactions run. -/
def readSystem (t : TxnId) (x : Slot) : TSys Reading ReadAction :=
  ⟨Reading.Init t x, Reading.step t x⟩

namespace Reading

variable (t : TxnId) (x : Slot)

/-- The steps, where the iterator of a transaction in `RestampVersions` stops at these of its
records. -/
def stepThrough (visited : TxnId → Option (List Nat)) (r : Reading) : ReadAction → Option Reading
  | .db a =>
      if a.txn = t ∨ r.pc.underWay && Db.takesLatch x a then none
      else (r.db.stepThrough visited a).map fun s => ⟨s, r.pc⟩
  | .read => Reading.step t x r .read

/-- The step of a transaction that it is. -/
def txnAction : ReadAction → Option Action
  | .db a => some a
  | .read => none

theorem recordCount_step {r r' : Reading} {a : ReadAction} (hs : r.step t x a = some r') :
    r'.db.recordCount = Action.recordsAfter r.db.recordCount (txnAction a) := by
  cases a with
  | db a =>
      simp only [step, Option.ite_none_left_eq_some] at hs
      obtain ⟨s, hdb, rfl⟩ := Option.map_eq_some_iff.mp hs.2
      exact (Db.stepped_of_step hdb).recordCount
  | read =>
      obtain ⟨pc, -, rfl⟩ := Option.map_eq_some_iff.mp hs
      rfl

end Reading

/-- A reader beside the transactions, with their undo buffers. -/
def readHost (t : TxnId) (x : Slot) : TxnHost Reading ReadAction where
  sys := readSystem t x
  db r := r.db
  action _ := Reading.txnAction
  restamps r a := (Reading.txnAction a).bind r.db.restamps
  stepThrough := Reading.stepThrough t x
  through_all visited r a hall := by
    cases a with
    | db a =>
        show (if _ then _ else _) = Reading.step t x r (.db a)
        rw [Db.stepThrough_all hall]
        rfl
    | read => rfl
  step_records _ _ _ := Reading.recordCount_step t x

namespace Db

variable {path : Slot → Bool} {s s' : Db} {a : Action} {t u : TxnId} {x : Slot} {p : RecPtr}
  {r : UndoRecord}

/-! ## Down the chain -/

/-- No version is twice in a chain. -/
theorem nodup_versions (hi : ChainInv s) (x : Slot) : (s.versions x).Nodup :=
  (hi.ordered x).imp fun habove heq => by
    subst heq
    simp [Above] at habove

theorem below_append {new rest : List RecPtr} (hv : s.versions x = new ++ p :: rest)
    (hp : p ∉ new) :
    s.below x p = p :: rest := by
  rw [below, hv, List.dropWhile_append_of_pos, List.dropWhile_cons_of_neg (by simp)]
  intro q hq
  exact decide_eq_true fun h => hp (h ▸ hq)

/-- Below a version comes the next one, and what is below that. -/
theorem below_eq_cons (hi : ChainInv s) (hp : p ∈ s.versions x) :
    s.below x p = p :: (s.next x p).toList.flatMap (s.below x) ∧ ∀ q ∈ s.next x p,
      q ∈ s.versions x := by
  obtain ⟨new, rest, hv⟩ := List.append_of_mem hp
  have hnodup := nodup_versions hi x
  rw [hv] at hnodup
  have hnew : p ∉ new := fun h => (List.nodup_append.mp hnodup).2.2 p h p List.mem_cons_self rfl
  have hbelow := below_append hv hnew
  rw [next, hbelow, List.tail_cons]
  cases rest with
  | nil => exact ⟨rfl, by simp⟩
  | cons q rest =>
      have hq : q ∉ new ++ [p] := by
        intro h
        have hnodup' : ((new ++ [p]) ++ q :: rest).Nodup := by simpa using hnodup
        exact (List.nodup_append.mp hnodup').2.2 q h q List.mem_cons_self rfl
      have hbelow' : s.below x q = q :: rest :=
        below_append (show s.versions x = (new ++ [p]) ++ q :: rest by simp [hv]) hq
      refine ⟨by simp [hbelow'], fun q' hq' => ?_⟩
      obtain rfl : q = q' := by simpa using hq'
      simp [hv]

/-- The records from a version down. -/
def chainFrom (s : Db) (x : Slot) (version : Option RecPtr) : List UndoRecord :=
  (version.toList.flatMap (s.below x)).filterMap s.record

theorem chainFrom_some (hi : ChainInv s) (hp : p ∈ s.versions x) (hr : s.record p = some r) :
    s.chainFrom x (some p) = r :: s.chainFrom x (s.next x p) := by
  rw [chainFrom, Option.toList_some, List.flatMap_singleton, (below_eq_cons hi hp).1,
    List.filterMap_cons_some hr]
  rfl

/-! ## The reader's own steps -/

/-- What the reader will answer if nobody comes in between. -/
def answer (s : Db) (y : Txn) (x : Slot) : SelectPc → Option (RowStatus × DataChunk)
  | .locked _ | .filled _ => none
  | .head p chunk => (s.record p).map fun r =>
      if r.timestamp = y.finish then (rowStatus r.isDeleted, chunk)
      else selectWalk y.start r.isDeleted (s.chainFrom x (some p)) chunk
  | .walk isDeleted version chunk =>
      some (selectWalk y.start isDeleted (s.chainFrom x version) chunk)
  | .done status chunk => some (status, chunk)

variable {y : Txn} {pc pc' : SelectPc} {chunk chunk₀ : DataChunk} {answered : RowStatus × DataChunk}

/-- A step of the reader keeps its answer. -/
theorem answer_selectStep (hi : ChainInv s) (hheld : ∀ p ∈ pc.version, p ∈ s.versions x)
    (hstep : s.selectStep y x pc = some pc') (hans : s.answer y x pc = some answered) :
    s.answer y x pc' = some answered ∧ ∀ p ∈ pc'.version, p ∈ s.versions x := by
  cases pc with
  | locked chunk => simp [answer] at hans
  | filled chunk => simp [answer] at hans
  | head p chunk =>
      obtain ⟨r, hr, rfl⟩ := Option.map_eq_some_iff.mp hstep
      simp only [answer, hr, Option.map_some] at hans
      split at hans
      · rename_i hown
        rw [if_pos hown]
        exact ⟨hans, by simp [SelectPc.version]⟩
      · rename_i hother
        rw [if_neg hother]
        exact ⟨hans, hheld⟩
  | walk isDeleted version chunk =>
      cases version with
      | none =>
          obtain rfl : _ = pc' := Option.some.inj hstep
          exact ⟨hans, by simp [SelectPc.version]⟩
      | some p =>
          have hp := hheld p rfl
          obtain ⟨r, hr, rfl⟩ := Option.map_eq_some_iff.mp hstep
          have hnext := (below_eq_cons hi hp).2
          rw [answer, chainFrom_some hi hp hr, selectWalk] at hans
          split at hans
          · rename_i hnewer
            rw [if_pos hnewer]
            cases htype : r.type <;> simp only [htype] at hans ⊢
            case insert => exact ⟨hans, by simp [SelectPc.version]⟩
            all_goals exact ⟨hans, hnext⟩
          · rename_i holder
            rw [if_neg holder]
            exact ⟨hans, by simp [SelectPc.version]⟩
  | done status chunk => simp [selectStep] at hstep

theorem underWay_of_selectStep (hstep : s.selectStep y x pc = some pc') : pc.underWay = true := by
  cases pc with
  | done status chunk => simp [selectStep] at hstep
  | _ => rfl

/-- The reader does not go back. -/
theorem past_of_selectStep (hlocked : ∀ c, pc ≠ .locked c) (hstep : s.selectStep y x pc = some pc')
    (chunk : DataChunk) :
    pc' ≠ .locked chunk ∧ pc' ≠ .filled chunk := by
  cases pc with
  | locked c => exact absurd rfl (hlocked c)
  | filled c =>
      simp only [selectStep] at hstep
      split at hstep <;> obtain rfl := Option.some.inj hstep <;> simp
  | head p c =>
      obtain ⟨r, -, rfl⟩ := Option.map_eq_some_iff.mp hstep
      split <;> simp
  | walk isDeleted version c =>
      cases version with
      | none =>
          obtain rfl : _ = pc' := Option.some.inj hstep
          simp
      | some p =>
          obtain ⟨r, -, rfl⟩ := Option.map_eq_some_iff.mp hstep
          split
          · cases r.type <;> simp
          · simp
  | done status c => simp [selectStep] at hstep

/-- With the head loaded the answer is that of `SelectIntoChunk` now. -/
theorem answer_load (hi : ChainInv s)
    (hstep : s.selectStep y x (.filled (readSingleIntoChunk (s.schema x.tbl) chunk (s.rows x))) =
      some pc') :
    s.answer y x pc' = some (s.selectIntoChunk y x chunk) ∧ ∀ p ∈ pc'.version,
      p ∈ s.versions x := by
  simp only [selectStep] at hstep
  cases hv : s.versions x with
  | nil =>
      rw [hv] at hstep
      obtain rfl : _ = pc' := Option.some.inj hstep
      exact ⟨by simp [answer, selectIntoChunk, chain, hv], by simp [SelectPc.version]⟩
  | cons p rest =>
      rw [hv] at hstep
      obtain rfl : _ = pc' := Option.some.inj hstep
      obtain ⟨r, hr⟩ := exists_record (hi.valid x p (by simp [hv]))
      have hbelow : s.below x p = p :: rest :=
        below_append (show s.versions x = [] ++ p :: rest from hv) (by simp)
      refine ⟨?_, by simp [SelectPc.version]⟩
      simp only [answer, hr, Option.map_some, chainFrom, Option.toList_some,
        List.flatMap_singleton, hbelow,
        selectIntoChunk, chain, hv, List.filterMap_cons_some hr]

/-- The reader comes to its end by itself. -/
def Finishes (s : Db) (y : Txn) (x : Slot) (pc : SelectPc) : Prop :=
  ∃ status chunk, Relation.ReflTransGen (fun pc pc' => s.selectStep y x pc = some pc') pc
    (.done status chunk)

theorem Finishes.head (hstep : s.selectStep y x pc = some pc') (h : s.Finishes y x pc') :
    s.Finishes y x pc := by
  obtain ⟨status, chunk, hrest⟩ := h
  exact ⟨status, chunk, .head hstep hrest⟩

theorem finishes_done (status : RowStatus) (chunk : DataChunk) :
    s.Finishes y x (.done status chunk) :=
  ⟨status, chunk, .refl⟩

/-- The loop ends with the chain. -/
theorem finishes_walk (hi : ChainInv s) (isDeleted : Bool) :
    ∀ (n : Nat) (version : Option RecPtr) (chunk : DataChunk),
    (version.toList.flatMap (s.below x)).length = n → (∀ p ∈ version, p ∈ s.versions x) →
    s.Finishes y x (.walk isDeleted version chunk) := by
  intro n
  induction n with
  | zero =>
      intro version chunk hlen hmem
      cases version with
      | none => exact .head rfl (finishes_done _ _)
      | some p => simp [(below_eq_cons hi (hmem p rfl)).1] at hlen
  | succ n ih =>
      intro version chunk hlen hmem
      cases version with
      | none => simp at hlen
      | some p =>
          have hp := hmem p rfl
          obtain ⟨hbelow, hnext⟩ := below_eq_cons hi hp
          obtain ⟨r, hr⟩ := exists_record (hi.valid x p hp)
          have hrest : ∀ chunk, s.Finishes y x (.walk isDeleted (s.next x p) chunk) :=
            fun chunk => ih _ _ (by simpa [hbelow] using hlen) hnext
          -- one turn of the loop, and the rest of the chain
          refine .head (by simp only [selectStep, hr, Option.map_some]; rfl) ?_
          split
          · cases r.type
            case insert => exact finishes_done _ _
            all_goals exact hrest _
          · exact finishes_done _ _

theorem finishes_head (hi : ChainInv s) (hp : p ∈ s.versions x) (chunk : DataChunk) :
    s.Finishes y x (.head p chunk) := by
  obtain ⟨r, hr⟩ := exists_record (hi.valid x p hp)
  refine .head (by simp only [selectStep, hr, Option.map_some]; rfl) ?_
  split
  · exact finishes_done _ _
  · exact finishes_walk hi _ _ _ _ rfl (by simpa using hp)

theorem finishes_filled (hi : ChainInv s) (chunk : DataChunk) : s.Finishes y x (.filled chunk) := by
  cases hv : (s.versions x).head? with
  | none =>
      have hstep :
          s.selectStep y x (.filled chunk) = some (.done (rowStatus (s.deletedBit x)) chunk) := by
        simp only [selectStep, hv]
      exact .head hstep (finishes_done _ _)
  | some p =>
      have hstep : s.selectStep y x (.filled chunk) = some (.head p chunk) := by
        simp only [selectStep, hv]
      exact .head hstep (finishes_head hi (List.mem_of_mem_head? hv) chunk)

/-- The reader never follows a pointer to no record, and comes to its end. -/
theorem finishes (hi : ChainInv s) (hheld : ∀ p ∈ pc.version, p ∈ s.versions x) :
    s.Finishes y x pc := by
  cases pc with
  | locked chunk => exact .head rfl (finishes_filled hi _)
  | filled chunk => exact finishes_filled hi chunk
  | head p chunk => exact finishes_head hi (hheld p rfl) chunk
  | walk isDeleted version chunk => exact finishes_walk hi isDeleted _ version chunk rfl hheld
  | done status chunk => exact finishes_done status chunk

/-! ## Steps of others -/

theorem readable_of_inv (h : AtomicInv path s) (hctl : (s.txns t).ctl = .active) : Readable s t :=
  ⟨h.run.commit, h.run.snapshots, by simp [Txn.running, hctl]⟩

/-- A step of another transaction moves no version of a reader. -/
theorem unmoved_step (h : AtomicInv path s) (hctl : (s.txns t).ctl = .active) (hs : Stepped s a s')
    (hne : t ≠ a.txn) (x : Slot) : Unmoved s s' t x := by
  have htxn := hs.txns_of_ne hne
  exact ⟨by rw [htxn], by rw [htxn], fun p hp => hs.content_eq h.run.commit h.run.chain hp,
    fun u => inSnapshot_step h.run.snapshots (by simp [Txn.running, hctl]) hs hne⟩

/-- Versions come on top of the chain. -/
theorem below_step (h : AtomicInv path s) (hs : Stepped s a s')
    (halloc : x.idx < s.count x.tbl x.pid)
    (hp : p ∈ s.versions x) : s'.below x p = s.below x p := by
  rcases hs.chain_cases x with hv | ⟨hnew, -, -⟩ | ⟨op, rec, hctl, hv, -⟩
  · rw [below, hv, below]
  · omega
  · have hne : (⟨a.txn, rec⟩ : RecPtr) ≠ p := by
      rintro rfl
      exact (h.run.chain.loop _ _ _ _ _ hctl).fresh (by simp) x hp
    rw [below, hv, List.dropWhile_cons_of_pos (by simpa using hne), below]

theorem answer_step (h : AtomicInv path s) (h' : AtomicInv path s')
    (hctl : (s.txns t).ctl = .active)
    (hs : Stepped s a s') (hne : t ≠ a.txn) (halloc : x.idx < s.count x.tbl x.pid)
    (hheld : ∀ p ∈ pc.version, p ∈ s.versions x) :
    s'.answer (s'.txns t) x pc = s.answer (s.txns t) x pc := by
  have htxn := hs.txns_of_ne hne
  have hread := readable_of_inv h hctl
  have hread' := readable_of_inv h' (by rw [htxn, hctl])
  have hunmoved := unmoved_step h hctl hs hne x
  -- the chain from a version down says the same
  have hchain : ∀ version : Option RecPtr, (∀ p ∈ version, p ∈ s.versions x) →
      List.Forall₂ (Alike (s.txns t).start (s.txns t).finish) (s.chainFrom x version)
        (s'.chainFrom x version) := by
    intro version hmem
    cases version with
    | none => exact .nil
    | some p =>
        have hp := hmem p rfl
        simp only [chainFrom, Option.toList_some, List.flatMap_singleton, below_step h hs halloc hp]
        exact alike_filterMap hread hread' h.run.chain hunmoved fun q hq =>
          (List.dropWhile_sublist _).mem hq
  cases pc with
  | locked chunk => rfl
  | filled chunk => rfl
  | done status chunk => rfl
  | head p chunk =>
      have hp := hheld p rfl
      obtain ⟨r, hr⟩ := exists_record (h.run.chain.valid x p hp)
      obtain ⟨r', hr', halike⟩ := alike_of_unmoved hread hread' hunmoved hp hr
      simp only [answer, hr, hr', Option.map_some, hunmoved.start, hunmoved.finish, halike.own,
        UndoRecord.isDeleted,
        halike.type, selectWalk_congr (hchain (some p) (by simpa using hp))]
  | walk isDeleted version chunk =>
      simp only [answer, hunmoved.start, selectWalk_congr (hchain version hheld)]

/-- With the latch held for reading nobody takes it, -/
theorem latch_step (hs : Stepped s a s') (htakes : takesLatch x a = false)
    (hlatch : s.latch x.tbl x.pid = none) :
    s'.latch x.tbl x.pid = none := by
  cases hs with
  | spin _ =>
      unfold tryLatch
      split <;> exact hlatch
  | check _ =>
      simp only [checkHead]
      split <;> exact hlatch
  | link _ =>
      unfold Db.link
      split <;> exact hlatch
  | @start t op slot _ _ _ =>
      simp only [startWrite]
      split
      · rename_i hlatched
        rw [latch_update, if_neg, hlatch]
        rintro ⟨htbl, hpid⟩
        simp [takesLatch, hlatched, htbl, hpid] at htakes
      · exact hlatch
  | @exit t op slot rec ok _ =>
      simp only [finishWrite]
      split
      · rw [latch_update]
        split
        · rfl
        · exact hlatch
      · exact hlatch
  | _ => exact hlatch

/-- and nobody writes the row. -/
theorem rows_step (h : AtomicInv path s) (hs : Stepped s a s')
    (halloc : x.idx < s.count x.tbl x.pid)
    (hlatch : s.latch x.tbl x.pid = none) : s'.rows x = s.rows x := by
  cases hs with
  | spin _ =>
      unfold tryLatch
      split <;> rfl
  | check _ =>
      simp only [checkHead]
      split <;> rfl
  | link _ =>
      unfold Db.link
      split <;> rfl
  | @insert t tbl pid chunk _ _ =>
      have hne : x ≠ ⟨tbl, pid, s.count tbl pid⟩ := by
        rintro rfl
        exact lt_irrefl _ halloc
      exact update_of_ne hne _ _
  | @apply t chunk slot rec head hctl =>
      have hne : x ≠ slot := by
        rintro rfl
        rw [h.run.latch _ _ _ _ _ hctl rfl] at hlatch
        simp at hlatch
      exact update_of_ne hne _ _
  | _ => rfl

/-! ## The settled database -/

theorem content_settled (hi : RunInv path s) (hp : p ∈ s.versions x) :
    s.settled.content p = s.content p := by
  obtain ⟨r, r', hr, hr', htype, hdelta, -⟩ := record_settled hi hp
  simp [content, hr, hr', htype, hdelta]

/-- A commit under way comes too late for a transaction under way. -/
theorem inSnapshot_settled (hi : RunInv path s) (hrun : (s.txns t).running = true) :
    s.settled.InSnapshot t u ↔ s.InSnapshot t u := by
  obtain ⟨hstart, -⟩ := settled_times (s.txns t)
  unfold InSnapshot
  rw [settled_txns, settled_txns, hstart]
  refine or_congr Iff.rfl ⟨?_, ?_⟩
  · rintro ⟨c, hctl, hle⟩
    refine ⟨c, ?_, hle⟩
    cases hold : (s.txns u).ctl with
    | restamping c' i =>
        -- its commit time was checked out after the reader began
        obtain rfl : c' = c := by simpa [Txn.settled, hold] using hctl
        rcases (hi.snapshots t hrun).commits u c'
          (by simp [Txn.commitTime, hold]) with ⟨-, hdone⟩ | hlt
        · simp [hold] at hdone
        · omega
    | committed c' => simpa [Txn.settled, hold] using hctl
    | writing op slot rec pc =>
        cases hout : pc.outcome op with
        | none => simp [settled_of_none hold hout] at hctl
        | some ok => simp [settled_of_some hold hout] at hctl
    | _ => simp [Txn.settled, hold] at hctl
  · rintro ⟨c, hctl, hle⟩
    exact ⟨c, by simp [Txn.settled, hctl], hle⟩

/-- With the page's latch free a reader finds in the settled database what it finds now. -/
theorem selectIntoChunk_settled (h : AtomicInv path s) (hctl : (s.txns t).ctl = .active)
    (hlatch : s.latch x.tbl x.pid = none) (hread : Readable s.settled t) (chunk : DataChunk) :
    s.settled.selectIntoChunk (s.settled.txns t) x chunk =
      s.selectIntoChunk (s.txns t) x chunk := by
  have hbefore := readable_of_inv h hctl
  have htimes := settled_times (s.txns t)
  have hunmoved : Unmoved s s.settled t x :=
    ⟨htimes.1, htimes.2, fun p hp => content_settled h.run hp,
    fun u => inSnapshot_settled h.run hbefore.running⟩
  refine selectIntoChunk_congr hbefore hread h.run.chain hunmoved ?_ rfl rfl ?_ chunk
  · simp [unlinked, hlatch]
  · simp [unmarked, hlatch]

end Db

/-! ## A read among the steps of others -/

/-- A call of `Select` that was called in `s₀`. -/
structure ReadInv (path : Slot → Bool) (s₀ : Db) (t : TxnId) (x : Slot) (chunk : DataChunk)
    (r : Reading) : Prop where
  inv : Db.AtomicInv path r.db
  run : txnSystem.Steps (Db.Orderly path) s₀ r.db
  active : (r.db.txns t).ctl = .active
  allocated : x.idx < r.db.count x.tbl x.pid
  latch : r.pc.underWay = true → r.db.latch x.tbl x.pid = none
  locked : ∀ c, r.pc = .locked c → c = chunk
  filled : ∀ c, r.pc = .filled c → c = readSingleIntoChunk (r.db.schema x.tbl) chunk (r.db.rows x)
  held : ∀ p ∈ r.pc.version, p ∈ r.db.versions x
  answered : ∀ R, r.db.answer (r.db.txns t) x r.pc = some R → ∃ s₁,
    txnSystem.Steps (Db.Orderly path) s₀ s₁ ∧
    txnSystem.Steps (Db.Orderly path) s₁ r.db ∧ s₁.latch x.tbl x.pid = none ∧
      (s₁.txns t).ctl = .active ∧
    s₁.selectIntoChunk (s₁.txns t) x chunk = R

namespace ReadInv

variable {path : Slot → Bool} {s₀ : Db} {t : TxnId} {x : Slot} {chunk : DataChunk} {r r' : Reading}

/-- Another transaction takes a step. -/
theorem db (h : ReadInv path s₀ t x chunk r) {a : Action} {s' : Db} (hc : Db.Orderly path r.db a)
    (hne : t ≠ a.txn)
    (htakes : r.pc.underWay = true → Db.takesLatch x a = false) (hstep : r.db.step a = some s') :
    ReadInv path s₀ t x chunk ⟨s', r.pc⟩ := by
  have hs := Db.stepped_of_step hstep
  have hinv := Db.atomicInv_step h.inv hc hstep
  refine ⟨hinv, h.run.tail hc hstep, by rw [hs.txns_of_ne hne]; exact h.active,
    lt_of_lt_of_le h.allocated (hs.count_le _ _),
      fun hway => Db.latch_step hs (htakes hway) (h.latch hway), h.locked,
    fun c hpc => ?_, fun p hp => hs.mem_versions h.inv.run.tuple (h.held p hp), fun R hR => ?_⟩
  · rw [hs.schema_eq, Db.rows_step h.inv hs h.allocated (h.latch (by rw [hpc]; rfl))]
    exact h.filled c hpc
  · rw [Db.answer_step h.inv hinv h.active hs hne h.allocated h.held] at hR
    obtain ⟨s₁, hbefore, hafter, hrest⟩ := h.answered R hR
    exact ⟨s₁, hbefore, hafter.tail hc hstep, hrest⟩

/-- The reader takes a step. -/
theorem read (h : ReadInv path s₀ t x chunk r) {pc' : SelectPc}
    (hstep : r.db.selectStep (r.db.txns t) x r.pc = some pc') :
    ReadInv path s₀ t x chunk ⟨r.db, pc'⟩ := by
  obtain ⟨s, pc⟩ := r
  -- once the head is loaded the answer is settled
  have hloaded : (∀ c, pc ≠ .locked c) → (∀ p ∈ pc'.version, p ∈ s.versions x) →
      (∀ R, s.answer (s.txns t) x pc' = some R → ∃ s₁, txnSystem.Steps (Db.Orderly path) s₀ s₁ ∧
        txnSystem.Steps (Db.Orderly path) s₁ s ∧ s₁.latch x.tbl x.pid = none ∧
          (s₁.txns t).ctl = .active ∧
        s₁.selectIntoChunk (s₁.txns t) x chunk = R) → ReadInv path s₀ t x chunk ⟨s, pc'⟩ := by
    intro hlocked held hanswered
    have hpast := Db.past_of_selectStep hlocked hstep
    exact ⟨h.inv, h.run, h.active, h.allocated, fun _ => h.latch (Db.underWay_of_selectStep hstep),
      fun c hc => absurd hc (hpast c).1, fun c hc => absurd hc (hpast c).2, held, hanswered⟩
  have hanswer : ∀ {R₀}, s.answer (s.txns t) x pc = some R₀ → (∀ c, pc ≠ .locked c) →
      ReadInv path s₀ t x chunk ⟨s, pc'⟩ := by
    intro R₀ hR₀ hlocked
    obtain ⟨hkept, held⟩ := Db.answer_selectStep h.inv.run.chain h.held hstep hR₀
    refine hloaded hlocked held fun R hR => ?_
    obtain rfl : R₀ = R := Option.some.inj (hkept.symm.trans hR)
    exact h.answered R₀ hR₀
  cases pc with
  | locked c =>
      obtain rfl := h.locked c rfl
      obtain rfl : _ = pc' := Option.some.inj hstep
      exact ⟨h.inv, h.run, h.active, h.allocated, fun _ => h.latch rfl, by simp,
        fun c' hc' => (SelectPc.filled.inj hc').symm,
        by simp [SelectPc.version], by simp [Db.answer]⟩
  | filled c =>
      have hc : c = readSingleIntoChunk (s.schema x.tbl) chunk (s.rows x) := h.filled c rfl
      rw [hc] at hstep
      obtain ⟨hnow, held⟩ := Db.answer_load h.inv.run.chain hstep
      refine hloaded (by simp) held fun R hR => ?_
      exact ⟨s, h.run, .refl, h.latch rfl, h.active, Option.some.inj (hnow.symm.trans hR)⟩
  | head p c =>
      obtain ⟨r, hr⟩ := Db.exists_record (h.inv.run.chain.valid x p (h.held p rfl))
      have hr : s.record p = some r := hr
      exact hanswer (by simp only [Db.answer, hr, Option.map_some]; rfl) (by simp)
  | walk isDeleted version c => exact hanswer rfl (by simp)
  | done status c => simp [Db.selectStep] at hstep

end ReadInv

theorem readInv_step {path : Slot → Bool} {s₀ : Db} {t : TxnId} {x : Slot} {chunk : DataChunk}
    {r r' : Reading} {a : ReadAction} (h : ReadInv path s₀ t x chunk r) (hc : r.Orderly path a)
    (hstep : r.step t x a = some r') :
    ReadInv path s₀ t x chunk r' := by
  cases a with
  | db a =>
      simp only [Reading.step] at hstep
      split at hstep
      · simp at hstep
      · rename_i hfree
        obtain ⟨s', hs', rfl⟩ := Option.map_eq_some_iff.mp hstep
        obtain ⟨hne, htakes⟩ := not_or.mp hfree
        exact h.db hc (Ne.symm hne) (fun hway => by simpa [hway] using htakes) hs'
  | read =>
      obtain ⟨pc', hpc', rfl⟩ := Option.map_eq_some_iff.mp hstep
      exact h.read hpc'

/-- What a transaction that reads the tuple as `read` says is told. -/
structure Told (read : History.Cell → Option Value) (x : Slot) (chunk : DataChunk)
    (status : RowStatus) (answer : DataChunk) : Prop where
  hidden : status = .notVisible → ∀ col, read (x, col) = none
  shown : status ≠ .notVisible → ∀ col, ∃ v, read (x, col) = some v ∧
    (col ∈ chunk.getColumnIds → answer.get col = some v)

theorem schema_run {path : Slot → Bool} {s s' : Db} (h : txnSystem.Steps (Db.Orderly path) s s') :
    s'.schema = s.schema :=
  h.invariant (P := fun s' => s'.schema = s.schema)
    (fun _ _ _ heq _ hstep => (Db.stepped_of_step hstep).schema_eq.trans heq) rfl

/-- With the page's latch free `SelectIntoChunk` tells what its transaction reads in the store of
whole operations. -/
theorem Db.select_told {path : Slot → Bool} {s₀ s : Db} {t : TxnId} {x : Slot} {chunk : DataChunk}
    (hinit : s₀.InitClear)
    (hr : txnSystem.Steps (Db.Orderly path) s₀ s) (hactive : (s.txns t).ctl = .active)
    (hfree : s.latch x.tbl x.pid = none) (halloc : x.idx < s.count x.tbl x.pid)
    (hchunk : ∀ col ∈ chunk.getColumnIds, col ∈ (s.schema x.tbl).columns) :
    ∃ k v, tableSystem.ReachableBy History.Regular k ∧ k.db = s.settled ∧
      Snapshot.Reached Prod.fst k.store ∧
      k.store.views t = some v ∧
      Told v.read x chunk (s.selectIntoChunk (s.txns t) x chunk).1
        (s.selectIntoChunk (s.txns t) x chunk).2 := by
  obtain ⟨k, hk, hdb⟩ := Db.settled_reachable hinit hr
  have hk' : tableSystem.ReachableBy (History.HandsOutBelow signBit) k := hk.mono fun _ _ hc => hc.1
  have hsettled : s.settled.txns t = s.txns t := Db.settled_of_active hactive
  have hctl : (k.db.txns t).ctl = .active := by rw [hdb, hsettled, hactive]
  -- whole operations are a run of the fine-grained system, so the settled database is in order as
  -- well
  have hreadable : Db.Readable s.settled t := by
    rw [← hdb]
    exact ⟨History.commitInv hk', Db.snapshots_reachable (History.reachable_db hk').1,
      by simp [Txn.running, hctl]⟩
  have hsame :
      k.db.selectIntoChunk (k.db.txns t) x chunk = s.selectIntoChunk (s.txns t) x chunk := by
    rw [hdb, Db.selectIntoChunk_settled (Db.atomicInv_run hinit.1 hr) hactive hfree hreadable]
  have hreads : k.Reads t (k.view t).read x chunk :=
    History.reads_of_active hk hctl (by rw [hdb]; exact halloc) (by rw [hdb]; exact hchunk)
  refine ⟨k, k.view t, hk, hdb, History.store_reached hk', History.store_active hctl, ?_, ?_⟩
  · exact fun hhidden => hreads.hidden (by rw [hsame]; exact hhidden)
  · intro hshown col
    obtain ⟨v, hv, hget⟩ := hreads.shown (by rw [hsame]; exact hshown) col
    exact ⟨v, hv, fun hcol => by rw [hsame] at hget; exact hget hcol⟩

/-- What `select_reads_snapshot` says, where `Commit` walks over the records. -/
theorem told_of_reading {path : Slot → Bool} {s₀ s : Db} {t : TxnId} {x : Slot}
    {chunk : DataChunk} {r : Reading}
    (hinit : s₀.InitClear) (hr : txnSystem.Steps (Db.Orderly path) s₀ s)
    (ht : (s.txns t).ctl = .active)
    (hlatch : s.latch x.tbl x.pid = none) (halloc : x.idx < s.count x.tbl x.pid)
    (hchunk : ∀ col ∈ chunk.getColumnIds, col ∈ (s.schema x.tbl).columns)
    (hread : (readSystem t x).Steps (Reading.Orderly path) ⟨s, .locked chunk⟩ r) :
    r.db.Finishes (r.db.txns t) x r.pc ∧ ∀ status answer, r.pc = .done status answer →
      ∃ s₁ k v, txnSystem.Steps (Db.Orderly path) s s₁ ∧ txnSystem.Steps (Db.Orderly path) s₁ r.db ∧
        tableSystem.ReachableBy History.Regular k ∧ k.db = s₁.settled ∧
          Snapshot.Reached Prod.fst k.store ∧
        k.store.views t = some v ∧ Told v.read x chunk status answer := by
  have hstart : ReadInv path s t x chunk ⟨s, .locked chunk⟩ :=
    ⟨Db.atomicInv_run hinit.1 hr, .refl, ht, halloc, fun _ => hlatch,
      fun c hc => (SelectPc.locked.inj hc).symm, by simp,
      by simp [SelectPc.version], by simp [Db.answer]⟩
  have h : ReadInv path s t x chunk r :=
    hread.invariant (fun _ _ _ hi hc hs => readInv_step hi hc hs) hstart
  refine ⟨Db.finishes h.inv.run.chain h.held, fun status answer hpc => ?_⟩
  obtain ⟨s₁, hbefore, hafter, hfree, hactive, hselect⟩ :=
    h.answered (status, answer) (by rw [hpc]; rfl)
  have hgrows : x.idx < s₁.count x.tbl x.pid :=
    hbefore.invariant (P := fun s' => x.idx < s'.count x.tbl x.pid)
    (fun _ _ _ hlt _ hstep => lt_of_lt_of_le hlt ((Db.stepped_of_step hstep).count_le _ _)) halloc
  obtain ⟨k, v, hk, hdb, hreached, hv, htold⟩ :=
    Db.select_told hinit (hr.trans hbefore) hactive hfree hgrows
    (by rw [schema_run hbefore]; exact hchunk)
  rw [hselect] at htold
  exact ⟨s₁, k, v, hbefore, hafter, hk, hdb, hreached, hv, htold⟩

/-- **A read among any steps of others is one of the snapshot-isolation store.** Where every
`Commit` visits all of its records, it comes to its end by itself, and what it has answered is what
its transaction reads, at a moment between the call and the answer, in a store that whole operations
have led to. -/
theorem select_reads_snapshot {memory : UndoMemory} {path : Slot → Bool} {y₀ y : WithUndo Db}
    {t : TxnId} {x : Slot} {chunk : DataChunk} {r : WithUndo Reading}
    (hinit : y₀.state.InitClear ∧ txnHost.Matches y₀.state y₀.calls)
    (hr : (txnHost.withUndo memory).Steps (txnHost.CommitsWhole memory (Db.Orderly path)) y₀ y)
    (ht : (y.state.txns t).ctl = .active) (hlatch : y.state.latch x.tbl x.pid = none)
    (halloc : x.idx < y.state.count x.tbl x.pid)
    (hchunk : ∀ col ∈ chunk.getColumnIds, col ∈ (y.state.schema x.tbl).columns)
    (hread : ((readHost t x).withUndo memory).Steps
      ((readHost t x).CommitsWhole memory (Reading.Orderly path))
      ⟨⟨y.state, .locked chunk⟩, y.calls⟩ r) :
    r.state.db.Finishes (r.state.db.txns t) x r.state.pc ∧ ∀ status answer,
      r.state.pc = .done status answer →
      ∃ s₁ k v, txnSystem.Steps (Db.Orderly path) y.state s₁ ∧
        txnSystem.Steps (Db.Orderly path) s₁ r.state.db ∧
        tableSystem.ReachableBy History.Regular k ∧ k.db = s₁.settled ∧
          Snapshot.Reached Prod.fst k.store ∧
        k.store.views t = some v ∧ Told v.read x chunk status answer := by
  obtain ⟨hsteps, hmatches⟩ := TxnHost.steps_of_commitsWhole hinit.2 hr
  have hcall : (readHost t x).Matches ⟨y.state, .locked chunk⟩ y.calls := hmatches
  exact told_of_reading hinit.1 hsteps ht hlatch halloc hchunk
    (TxnHost.steps_of_commitsWhole hcall hread).1

/-- Transaction 0 has updated the tuple after transaction 1 began. -/
def updateAfterBegin : List Action :=
  [.begin 1, .spin 1, .begin 0, .spin 0, .write 0 (.update Db.setOne) Db.theTuple, .run 0, .run 0,
    .run 0, .run 0, .run 0]

/-- Transaction 1 walks down the chain while transaction 0 commits. -/
def readDuringCommit : List ReadAction :=
  [.read, .read, .db (.commit 0), .read, .db (.run 0), .db (.run 0), .read, .db (.run 0), .read]

theorem select_reads_snapshot_duringCommit :
    ∃ y r, (txnHost.withUndo .zeroed).Steps
      (txnHost.CommitsWhole .zeroed (Db.Orderly fun _ => true))
        ⟨Db.oneTuple, fun _ => []⟩ y ∧
      ((readHost 1 Db.theTuple).withUndo .zeroed).Steps
        ((readHost 1 Db.theTuple).CommitsWhole .zeroed (Reading.Orderly fun _ => true))
        ⟨⟨y.state, .locked [(3, [])]⟩, y.calls⟩ r ∧
      (r.state.db.txns 0).ctl = .committed 2 ∧ r.state.db.rows Db.theTuple 0 = [1] ∧
      ∃ (s₁ : Db) (k : History) (v : Snapshot.View History.Cell Value Slot),
        txnSystem.Steps (Db.Orderly fun _ => true) y.state s₁ ∧ k.db = s₁.settled ∧
          k.store.views 1 = some v ∧
        Told v.read Db.theTuple [(3, [])] .visible [(3, [0])] := by
  let s := (txnSystem.exec (Db.Orderly fun _ => true) Db.oneTuple updateAfterBegin).get
    (by decide +kernel)
  have hs : txnSystem.exec (Db.Orderly fun _ => true) Db.oneTuple updateAfterBegin = some s :=
    (Option.some_get _).symm
  let r := ((readSystem 1 Db.theTuple).exec (Reading.Orderly fun _ => true) ⟨s, .locked [(3, [])]⟩
    readDuringCommit).get
    (by decide +kernel)
  have hr : (readSystem 1 Db.theTuple).exec (Reading.Orderly fun _ => true) ⟨s, .locked [(3, [])]⟩
      readDuringCommit =
      some r := (Option.some_get _).symm
  have hdone : r.pc = .done .visible [(3, [0])] := by decide +kernel
  have hactive : (s.txns 1).ctl = .active := by decide +kernel
  have hfree : s.latch Db.theTuple.tbl Db.theTuple.pid = none := by decide +kernel
  have halloc : Db.theTuple.idx < s.count Db.theTuple.tbl Db.theTuple.pid := by decide +kernel
  have hchunk : ∀ col ∈ DataChunk.getColumnIds [(3, [])],
      col ∈ (s.schema Db.theTuple.tbl).columns := by decide +kernel
  have hcommitted : (r.db.txns 0).ctl = .committed 2 := by decide +kernel
  have hrow : r.db.rows Db.theTuple 0 = [1] := by decide +kernel
  have hnone : txnHost.Matches Db.oneTuple fun _ => [] := fun _ => rfl
  obtain ⟨calls, hsteps, hmatches⟩ := TxnHost.exists_withUndo hnone (.of_exec _ hs)
  obtain ⟨calls', hread, -⟩ :=
    TxnHost.exists_withUndo (H := readHost 1 Db.theTuple) (s := ⟨s, .locked [(3, [])]⟩)
    hmatches (.of_exec _ hr)
  obtain ⟨-, hanswered⟩ :=
    select_reads_snapshot (t := 1) (x := Db.theTuple) ⟨⟨Db.oneTuple_init, fun _ _ => rfl⟩, hnone⟩
    hsteps hactive hfree halloc hchunk hread
  obtain ⟨s₁, k, v, hbefore, -, -, hdb, -, hv, htold⟩ := hanswered _ _ hdone
  exact ⟨⟨s, calls⟩, ⟨r, calls'⟩, hsteps, hread, hcommitted, hrow, s₁, k, v, hbefore,
    hdb, hv, htold⟩

end Db7
