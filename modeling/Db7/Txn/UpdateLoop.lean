import Db7.Txn.CommitOrder

/-!
# An update and the deletes that take no latch

`UpdateUndo` overwrites the row and fills in the before-image, and only then swaps
its record in. The page latch keeps every other writer out (`latchInv_step`) except
`DeleteUndoRaw`, which can extend the version chain between the load and the swap.

* **frame** (`foreign_step`): while an update of `t` runs, the others leave the row
  and the records of `t` alone, and extend the chain at most;
* **all or nothing** (`update_all_or_nothing`): as long as every swap of the call
  finds the head that its loop has loaded, a call that returns false has changed
  nothing, and the record of one that returns true holds the row as it was.

A swap that finds another head leaves the row overwritten (`update_half_done`).
-/

namespace Db7

open Lib Function

/-- The transaction whose step this is. -/
def Action.txn : Action → TxnId
  | .begin t | .spin t | .insert t _ _ _ | .write t _ _ | .commit t | .run t => t

namespace Db

variable {s s' s₀ : Db} {t u : TxnId} {slot : Slot} {chunk : DataChunk} {rec : Nat}

/-- A step moves one transaction only. -/
theorem Stepped.txns_of_ne {a : Action} (h : Stepped s a s') (hne : u ≠ a.txn) :
    s'.txns u = s.txns u := by
  cases h with
  | begin _ => exact update_of_ne hne ..
  | spin _ =>
      unfold tryLatch
      split
      · rfl
      · exact update_of_ne hne ..
  | insert hctl _ => exact (writeStep_insert _ _ _ hctl).others u hne
  | start hctl _ _ => exact (writeStep_start _ _ hctl).others u hne
  | lock _ => exact update_of_ne hne ..
  | checkOut _ => exact update_of_ne hne ..
  | restamp _ _ => exact update_of_ne hne ..
  | unlock _ _ => exact update_of_ne hne ..
  | load hctl => exact (writeStep_setPc hctl _).others u hne
  | check hctl => exact (writeStep_check hctl _).others u hne
  | apply hctl => exact (writeStep_apply hctl).others u hne
  | link hctl => exact (writeStep_link hctl _).others u hne
  | exit hctl => exact (writeStep_exit hctl _).others u hne

/-! ## Steps inside the loop -/

section Loop

variable (s : Db) (t : TxnId) (op : WriteOp) (slot : Slot) (rec : Nat) (head : Option RecPtr)

@[simp] theorem checkHead_latch : (s.checkHead t op slot rec head).latch = s.latch := by
  simp only [checkHead]
  split <;> rfl

@[simp] theorem checkHead_rows : (s.checkHead t op slot rec head).rows = s.rows := by
  simp only [checkHead]
  split <;> rfl

@[simp] theorem checkHead_versions :
    (s.checkHead t op slot rec head).versions = s.versions := by
  simp only [checkHead]
  split <;> rfl

@[simp] theorem link_latch : (s.link t op slot rec head).latch = s.latch := by
  unfold link
  split <;> rfl

@[simp] theorem link_rows : (s.link t op slot rec head).rows = s.rows := by
  unfold link
  split <;> rfl

theorem checkHead_ctl :
    ∃ pc, ((s.checkHead t op slot rec head).txns t).ctl = .writing op slot rec pc := by
  simp only [checkHead]
  split
  · exact ⟨_, by simp [setPc]; rfl⟩
  · exact ⟨_, by simp [setPc]; rfl⟩

theorem link_ctl : ∃ pc, ((s.link t op slot rec head).txns t).ctl = .writing op slot rec pc := by
  unfold link
  split
  · exact ⟨_, by simp [setPc]; rfl⟩
  · exact ⟨_, by simp [setPc]; rfl⟩

end Loop

/-! ## The page latch -/

/-- Inside a call that latches its page, the latch is the caller's. -/
def LatchInv (s : Db) : Prop :=
  ∀ t op slot rec pc, (s.txns t).ctl = .writing op slot rec pc → latched op = true →
    s.latch slot.tbl slot.pid = some t

/-- The latches stay, and a caller that moves stays in its call or leaves. -/
theorem LatchInv.of_latch (hi : s.LatchInv) (hlatch : s'.latch = s.latch)
    (hothers : ∀ u, u ≠ t → s'.txns u = s.txns u)
    (hctl : ∀ op slot rec pc, (s'.txns t).ctl = .writing op slot rec pc →
      ∃ pc', (s.txns t).ctl = .writing op slot rec pc') : s'.LatchInv := by
  intro u op slot rec pc hw hl
  rw [hlatch]
  by_cases hu : u = t
  · subst hu
    obtain ⟨pc', hw'⟩ := hctl op slot rec pc hw
    exact hi u op slot rec pc' hw' hl
  · rw [hothers u hu] at hw
    exact hi u op slot rec pc hw hl

/-- A step inside the loop of a call. -/
theorem LatchInv.of_loop {op : WriteOp} {pc pc' : WritePc} (hi : s.LatchInv)
    (hlatch : s'.latch = s.latch) (hothers : ∀ u, u ≠ t → s'.txns u = s.txns u)
    (hctl : (s.txns t).ctl = .writing op slot rec pc)
    (hctl' : (s'.txns t).ctl = .writing op slot rec pc') : s'.LatchInv := by
  refine hi.of_latch hlatch hothers ?_
  intro op₁ x rec₁ pc₁ hw
  rw [hctl', Ctl.writing.injEq] at hw
  obtain ⟨rfl, rfl, rfl, -⟩ := hw
  exact ⟨pc, hctl⟩

theorem latch_update (latch : Nat → Nat → Option TxnId) (tbl pid tbl' pid' : Nat)
    (owner : Option TxnId) :
    update latch tbl (update (latch tbl) pid owner) tbl' pid' =
      if tbl' = tbl ∧ pid' = pid then owner else latch tbl' pid' := by
  by_cases htbl : tbl' = tbl
  · subst htbl
    by_cases hpid : pid' = pid
    · simp [hpid]
    · simp [hpid]
  · simp [htbl]

theorem latchInv_step {a : Action} (hi : s.LatchInv) (h : Stepped s a s') : s'.LatchInv := by
  have hothers := fun u (hu : u ≠ a.txn) => h.txns_of_ne hu
  cases h with
  | begin _ => exact hi.of_latch rfl hothers (by simp [Action.txn])
  | @spin t hctl =>
      refine hi.of_latch ?_ hothers ?_
      · unfold tryLatch
        split <;> rfl
      · unfold tryLatch
        split
        · simp [Action.txn, hctl]
        · simp [Action.txn]
  | insert hctl _ => exact hi.of_latch rfl hothers (by simp [Action.txn, insertTuple, hctl])
  | @start t op slot hctl halloc hfree =>
      intro u op' x rec pc hw hl
      by_cases hu : u = t
      · subst hu
        simp only [startWrite, setTxn_txns, update_self, Ctl.writing.injEq] at hw
        obtain ⟨rfl, rfl, -, -⟩ := hw
        simp [startWrite, hl]
      · rw [hothers u hu] at hw
        have hheld := hi u op' x rec pc hw hl
        unfold startWrite
        by_cases hop : latched op = true
        · -- the free latch that `t` takes is not the one `u` holds
          simp only [hop, if_true]
          rw [latch_update, if_neg]
          · exact hheld
          · rintro ⟨htbl, hpid⟩
            rw [htbl, hpid, hfree hop] at hheld
            exact absurd hheld (by simp)
        · simpa [hop] using hheld
  | lock _ => exact hi.of_latch rfl hothers (by simp [Action.txn])
  | checkOut _ => exact hi.of_latch rfl hothers (by simp [Action.txn])
  | restamp _ _ => exact hi.of_latch rfl hothers (by simp [Action.txn, restampOne])
  | unlock _ _ => exact hi.of_latch rfl hothers (by simp [Action.txn])
  | @load t op x rec hctl =>
      have hctl' : ((s.setTxn t (setPc (s.txns t) op x rec (.check (s.versions x).head?))).txns
          t).ctl = .writing op x rec (.check (s.versions x).head?) := by simp [setPc]
      exact hi.of_loop rfl hothers hctl hctl'
  | check hctl =>
      obtain ⟨pc', hctl'⟩ := s.checkHead_ctl ..
      exact hi.of_loop (checkHead_latch ..) hothers hctl hctl'
  | @apply t chunk x rec head hctl =>
      have hctl' : ((s.applyUpdate t chunk x rec head).txns t).ctl =
          .writing (.update chunk) x rec (.link head) := by simp [applyUpdate, setPc]
      exact hi.of_loop rfl hothers hctl hctl'
  | link hctl =>
      obtain ⟨pc', hctl'⟩ := s.link_ctl ..
      exact hi.of_loop (link_latch ..) hothers hctl hctl'
  | @exit t op slot rec ok hctl =>
      intro u op' x rec' pc hw hl
      by_cases hu : u = t
      · subst hu
        simp [finishWrite] at hw
      · rw [hothers u hu] at hw
        have hheld := hi u op' x rec' pc hw hl
        unfold finishWrite
        by_cases hop : latched op = true
        · -- the latch that `t` gives back is not the one `u` holds
          simp only [hop, if_true]
          rw [latch_update, if_neg]
          · exact hheld
          · rintro ⟨htbl, hpid⟩
            rw [htbl, hpid, hi t op slot rec _ hctl hop] at hheld
            exact hu (Option.some.inj hheld).symm
        · simpa [hop] using hheld

/-! ## What the others can do meanwhile -/

/-- The chain has only been extended, by records of other transactions. -/
def ExtendedByOthers (s₀ s : Db) (t : TxnId) (slot : Slot) : Prop :=
  ∃ new, s.versions slot = new ++ s₀.versions slot ∧ ∀ p ∈ new, p.owner ≠ t

theorem ExtendedByOthers.of_eq (h : s'.versions slot = s.versions slot) :
    ExtendedByOthers s s' t slot := ⟨[], h, by simp⟩

theorem ExtendedByOthers.trans (h₀ : ExtendedByOthers s₀ s t slot)
    (h : ExtendedByOthers s s' t slot) : ExtendedByOthers s₀ s' t slot := by
  obtain ⟨new₀, heq₀, howner₀⟩ := h₀
  obtain ⟨new, heq, howner⟩ := h
  refine ⟨new ++ new₀, by rw [heq, heq₀, List.append_assoc], ?_⟩
  intro p hp
  rcases List.mem_append.mp hp with hp | hp
  · exact howner p hp
  · exact howner₀ p hp

/-- What a step of another transaction leaves of a row that `t` has latched. -/
structure Foreign (s s' : Db) (t : TxnId) (slot : Slot) : Prop where
  txn : s'.txns t = s.txns t
  rows : s'.rows slot = s.rows slot
  versions : ExtendedByOthers s s' t slot

theorem foreign_step {a : Action} (hi : s.LatchInv) (hheld : s.latch slot.tbl slot.pid = some t)
    (halloc : slot.idx < s.count slot.tbl slot.pid) (hne : t ≠ a.txn) (h : Stepped s a s') :
    Foreign s s' t slot := by
  have htxn := h.txns_of_ne hne
  cases h with
  | begin _ => exact ⟨htxn, rfl, .of_eq rfl⟩
  | spin _ =>
      refine ⟨htxn, ?_, .of_eq ?_⟩
      · unfold tryLatch
        split <;> rfl
      · unfold tryLatch
        split <;> rfl
  | @insert u tbl pid chunk hctl hfree =>
      have hslot : slot ≠ ⟨tbl, pid, s.count tbl pid⟩ := by
        rintro rfl
        exact Nat.lt_irrefl _ halloc
      exact ⟨htxn, update_of_ne hslot .., .of_eq (update_of_ne hslot ..)⟩
  | start _ _ _ => exact ⟨htxn, rfl, .of_eq rfl⟩
  | lock _ => exact ⟨htxn, rfl, .of_eq rfl⟩
  | checkOut _ => exact ⟨htxn, rfl, .of_eq rfl⟩
  | restamp _ _ => exact ⟨htxn, rfl, .of_eq rfl⟩
  | unlock _ _ => exact ⟨htxn, rfl, .of_eq rfl⟩
  | load _ => exact ⟨htxn, rfl, .of_eq rfl⟩
  | check _ => exact ⟨htxn, by rw [checkHead_rows], .of_eq (by rw [checkHead_versions])⟩
  | @apply u chunk x rec head hctl =>
      -- another update of the row would hold the same latch
      have hslot : slot ≠ x := by
        rintro rfl
        have hother := hi u _ _ _ _ hctl rfl
        rw [hheld] at hother
        exact hne (Option.some.inj hother)
      exact ⟨htxn, update_of_ne hslot .., .of_eq rfl⟩
  | @link u op x rec head hctl =>
      refine ⟨htxn, by rw [link_rows], ?_⟩
      unfold link
      split
      · by_cases hslot : slot = x
        · subst hslot
          refine ⟨[⟨u, rec⟩], by simp, ?_⟩
          intro p hp
          rw [List.mem_singleton.mp hp]
          exact fun heq => hne heq.symm
        · exact .of_eq (update_of_ne hslot ..)
      · exact .of_eq rfl
  | exit _ => exact ⟨htxn, rfl, .of_eq rfl⟩

/-! ## The call -/

/-- The call has changed neither the row nor the chain. -/
structure Untouched (s₀ s : Db) (t : TxnId) (slot : Slot) : Prop where
  rows : s.rows slot = s₀.rows slot
  versions : ExtendedByOthers s₀ s t slot

/-- The row is written, and the record holds the before-image. -/
structure Overwritten (s₀ s : Db) (t : TxnId) (chunk : DataChunk) (slot : Slot) (rec : Nat) :
    Prop where
  rows : s.rows slot = (updateSingle (s₀.schema slot.tbl) chunk (s₀.rows slot)).2
  record : ∃ r, s.record ⟨t, rec⟩ = some r ∧
    r.delta = (updateSingle (s₀.schema slot.tbl) chunk (s₀.rows slot)).1

/-- What holds at each point of the loop when no swap misses: only between the write
of the page and the swap is the row written and the record not linked. -/
def Progress (s₀ s : Db) (t : TxnId) (chunk : DataChunk) (slot : Slot) (rec : Nat) :
    WritePc → Prop
  | .load | .check _ | .apply _ | .exit false => Untouched s₀ s t slot
  | .link _ => Overwritten s₀ s t chunk slot rec ∧ ExtendedByOthers s₀ s t slot
  | .exit true => Overwritten s₀ s t chunk slot rec ∧ ⟨t, rec⟩ ∈ s.versions slot

theorem Untouched.foreign (h : Untouched s₀ s t slot) (hf : Foreign s s' t slot) :
    Untouched s₀ s' t slot :=
  ⟨hf.rows.trans h.rows, h.versions.trans hf.versions⟩

theorem Overwritten.foreign (h : Overwritten s₀ s t chunk slot rec) (hf : Foreign s s' t slot) :
    Overwritten s₀ s' t chunk slot rec := by
  refine ⟨hf.rows.trans h.rows, ?_⟩
  obtain ⟨r, hr, hdelta⟩ := h.record
  refine ⟨r, ?_, hdelta⟩
  unfold Db.record at hr ⊢
  rwa [hf.txn]

theorem Progress.foreign {pc : WritePc} (h : Progress s₀ s t chunk slot rec pc)
    (hf : Foreign s s' t slot) : Progress s₀ s' t chunk slot rec pc := by
  have hlinked : ⟨t, rec⟩ ∈ s.versions slot → ⟨t, rec⟩ ∈ s'.versions slot := by
    obtain ⟨new, heq, -⟩ := hf.versions
    intro hmem
    rw [heq]
    exact List.mem_append_right _ hmem
  cases pc with
  | load => exact Untouched.foreign h hf
  | check head => exact Untouched.foreign h hf
  | apply head => exact Untouched.foreign h hf
  | link head => exact ⟨h.1.foreign hf, h.2.trans hf.versions⟩
  | exit ok =>
      cases ok with
      | false => exact Untouched.foreign h hf
      | true => exact ⟨h.1.foreign hf, hlinked h.2⟩

/-- The update that began in `s₀` with record `rec`, up to and after its return. -/
structure UpdateInv (s₀ : Db) (t : TxnId) (chunk : DataChunk) (slot : Slot) (rec : Nat)
    (s : Db) : Prop where
  latch : s.LatchInv
  schema : s.schema = s₀.schema
  allocated : slot.idx < s.count slot.tbl slot.pid
  begun : (s.txns t).ctl ≠ .idle
  made : rec < (s.txns t).undo.length
  progress : ∀ op x pc, (s.txns t).ctl = .writing op x rec pc →
    op = .update chunk ∧ x = slot ∧ Progress s₀ s t chunk slot rec pc

/-- Every swap of the call finds the head that its loop has loaded. -/
def SwapsFindHead (t : TxnId) (rec : Nat) (s : Db) (a : Action) : Prop :=
  a = .run t → ∀ op slot head, (s.txns t).ctl = .writing op slot rec (.link head) →
    (s.versions slot).head? = head

/-- A step of another transaction. -/
theorem UpdateInv.of_other {a : Action} (hi : UpdateInv s₀ t chunk slot rec s)
    (hne : t ≠ a.txn) (h : Stepped s a s') : UpdateInv s₀ t chunk slot rec s' := by
  have htxn := h.txns_of_ne hne
  refine ⟨latchInv_step hi.latch h, h.schema_eq.trans hi.schema,
    Nat.lt_of_lt_of_le hi.allocated (h.count_le ..), by rw [htxn]; exact hi.begun,
    by rw [htxn]; exact hi.made, ?_⟩
  intro op x pc hctl
  rw [htxn] at hctl
  obtain ⟨rfl, rfl, hp⟩ := hi.progress op x pc hctl
  have hheld := hi.latch t _ x rec pc hctl rfl
  exact ⟨rfl, rfl, hp.foreign (foreign_step hi.latch hheld hi.allocated hne h)⟩

/-- A step of `t` that is not inside a call with this record. -/
theorem UpdateInv.of_outside {a : Action} (hi : UpdateInv s₀ t chunk slot rec s)
    (h : Stepped s a s') (hbegun : (s'.txns t).ctl ≠ .idle)
    (hmade : (s.txns t).undo.length ≤ (s'.txns t).undo.length)
    (hout : ∀ op x pc, (s'.txns t).ctl ≠ .writing op x rec pc) :
    UpdateInv s₀ t chunk slot rec s' :=
  ⟨latchInv_step hi.latch h, h.schema_eq.trans hi.schema,
    Nat.lt_of_lt_of_le hi.allocated (h.count_le ..), hbegun, Nat.lt_of_lt_of_le hi.made hmade,
    fun op x pc hctl => absurd hctl (hout op x pc)⟩

/-- A step of the call itself, to the point `pc` of its loop. -/
theorem UpdateInv.of_call {a : Action} {pc : WritePc} (hi : UpdateInv s₀ t chunk slot rec s)
    (h : Stepped s a s') (hmade : (s.txns t).undo.length ≤ (s'.txns t).undo.length)
    (hctl : (s'.txns t).ctl = .writing (.update chunk) slot rec pc)
    (hp : Progress s₀ s' t chunk slot rec pc) : UpdateInv s₀ t chunk slot rec s' := by
  refine ⟨latchInv_step hi.latch h, h.schema_eq.trans hi.schema,
    Nat.lt_of_lt_of_le hi.allocated (h.count_le ..), by simp [hctl],
    Nat.lt_of_lt_of_le hi.made hmade, ?_⟩
  intro op x pc' hctl'
  rw [hctl, Ctl.writing.injEq] at hctl'
  obtain ⟨rfl, rfl, -, rfl⟩ := hctl'
  exact ⟨rfl, rfl, hp⟩

/-- A record that is not the last is not touched by a new call. -/
theorem UpdateInv.ne_new (hi : UpdateInv s₀ t chunk slot rec s) : (s.txns t).undo.length ≠ rec :=
  fun heq => Nat.lt_irrefl rec (heq ▸ hi.made)

/-- A step inside the loop of another call of `t`. -/
theorem UpdateInv.of_loop {a : Action} {op : WriteOp} {x : Slot} {other : Nat} {pc : WritePc}
    (hi : UpdateInv s₀ t chunk slot rec s) (h : Stepped s a s')
    (hmade : (s.txns t).undo.length ≤ (s'.txns t).undo.length)
    (hctl : (s'.txns t).ctl = .writing op x other pc) (hne : other ≠ rec) :
    UpdateInv s₀ t chunk slot rec s' := by
  refine hi.of_outside h (by simp [hctl]) hmade ?_
  simp [hctl, hne]

theorem Untouched.keep (h : Untouched s₀ s t slot) (hrows : s'.rows slot = s.rows slot)
    (hversions : s'.versions slot = s.versions slot) : Untouched s₀ s' t slot :=
  ⟨hrows.trans h.rows, h.versions.trans (.of_eq hversions)⟩

/-- The test leaves the row and the chain as they are. -/
theorem progress_checkHead (rec : Nat) (head : Option RecPtr) (h : Untouched s₀ s t slot) :
    ∃ pc, ((s.checkHead t (.update chunk) slot rec head).txns t).ctl =
        .writing (.update chunk) slot rec pc ∧
      Progress s₀ (s.checkHead t (.update chunk) slot rec head) t chunk slot rec pc := by
  have hkept : Untouched s₀ (s.checkHead t (.update chunk) slot rec head) t slot :=
    h.keep (by rw [checkHead_rows]) (by rw [checkHead_versions])
  by_cases hb : s.blocked (s.txns t) slot head (.update chunk) = true
  · exact ⟨.exit false, by simp [checkHead, hb, setPc], hkept⟩
  · exact ⟨.apply head, by simp [checkHead, hb, setPc, passed], hkept⟩

/-- `UpdateSingle` takes the before-image from a row that is still as it was. -/
theorem overwritten_applyUpdate {head : Option RecPtr} (h : Untouched s₀ s t slot)
    (hschema : s.schema = s₀.schema) (hmade : rec < (s.txns t).undo.length) :
    Overwritten s₀ (s.applyUpdate t chunk slot rec head) t chunk slot rec := by
  refine ⟨?_, { (s.txns t).undo[rec] with
    delta := (updateSingle (s₀.schema slot.tbl) chunk (s₀.rows slot)).1 }, ?_, rfl⟩
  · simp [applyUpdate, hschema, h.rows]
  · simp [applyUpdate, setPc, Db.record, hschema, h.rows, hmade]

/-- A swap that finds its head links the record. -/
theorem progress_link {head : Option RecPtr} (h : Overwritten s₀ s t chunk slot rec)
    (hfound : (s.versions slot).head? = head) :
    Progress s₀ (s.link t (.update chunk) slot rec head) t chunk slot rec (.exit true) := by
  refine ⟨⟨by rw [link_rows]; exact h.rows, ?_⟩, by simp [link, hfound]⟩
  obtain ⟨r, hr, hdelta⟩ := h.record
  refine ⟨r, ?_, hdelta⟩
  unfold Db.record at hr ⊢
  simpa [link, hfound, setPc] using hr

/-- A step of the transaction that made the call. -/
theorem UpdateInv.of_own {a : Action} (hi : UpdateInv s₀ t chunk slot rec s)
    (hc : SwapsFindHead t rec s a) (h : Stepped s a s') (hown : a.txn = t) :
    UpdateInv s₀ t chunk slot rec s' := by
  have hstep := h
  cases h with
  | @begin u hctl =>
      obtain rfl : u = t := hown
      exact absurd hctl hi.begun
  | @spin u hctl =>
      obtain rfl : u = t := hown
      refine hi.of_outside hstep ?_ ?_ ?_
      all_goals
        unfold tryLatch
        split <;> simp [hctl]
  | @insert u tbl pid chunk' hctl _ =>
      obtain rfl : u = t := hown
      exact hi.of_outside hstep (by simp [insertTuple, hctl])
        (writeStep_insert _ _ _ hctl).length (by simp [insertTuple, hctl])
  | @start u op x hctl _ _ =>
      obtain rfl : u = t := hown
      have hctl' : ((s.startWrite u op x).txns u).ctl =
          .writing op x (s.txns u).undo.length .load := by simp [startWrite]
      exact hi.of_loop hstep (writeStep_start op x hctl).length hctl' hi.ne_new
  | @lock u _ =>
      obtain rfl : u = t := hown
      exact hi.of_outside hstep (by simp) (by simp) (by simp)
  | @checkOut u _ =>
      obtain rfl : u = t := hown
      exact hi.of_outside hstep (by simp) (by simp) (by simp)
  | @restamp u c i _ _ =>
      obtain rfl : u = t := hown
      exact hi.of_outside hstep (by simp [restampOne]) (by simp [restampOne])
        (by simp [restampOne])
  | @unlock u c i _ _ =>
      obtain rfl : u = t := hown
      exact hi.of_outside hstep (by simp) (by simp) (by simp)
  | @exit u op x other ok hctl =>
      obtain rfl : u = t := hown
      exact hi.of_outside hstep (by simp [finishWrite]) (writeStep_exit hctl _).length
        (by simp [finishWrite])
  | @load u op x other hctl =>
      obtain rfl : u = t := hown
      have hlength := (writeStep_setPc hctl (.check (s.versions x).head?)).length
      have hctl' : ((s.setTxn u (setPc (s.txns u) op x other (.check (s.versions x).head?))).txns
          u).ctl = .writing op x other (.check (s.versions x).head?) := by simp [setPc]
      by_cases hrec : other = rec
      · subst hrec
        obtain ⟨rfl, rfl, hp⟩ := hi.progress op x _ hctl
        exact hi.of_call hstep hlength hctl' (Untouched.keep hp rfl rfl)
      · exact hi.of_loop hstep hlength hctl' hrec
  | @check u op x other head hctl =>
      obtain rfl : u = t := hown
      have hlength := (writeStep_check hctl head).length
      by_cases hrec : other = rec
      · subst hrec
        obtain ⟨rfl, rfl, hp⟩ := hi.progress op x _ hctl
        obtain ⟨pc, hctl', hp'⟩ := progress_checkHead other head hp
        exact hi.of_call hstep hlength hctl' hp'
      · obtain ⟨pc, hctl'⟩ := s.checkHead_ctl u op x other head
        exact hi.of_loop hstep hlength hctl' hrec
  | @apply u chunk' x other head hctl =>
      obtain rfl : u = t := hown
      have hlength := (writeStep_apply hctl).length
      have hctl' : ((s.applyUpdate u chunk' x other head).txns u).ctl =
          .writing (.update chunk') x other (.link head) := by simp [applyUpdate, setPc]
      by_cases hrec : other = rec
      · subst hrec
        obtain ⟨heq, rfl, hp⟩ := hi.progress _ x _ hctl
        obtain rfl := WriteOp.update.inj heq
        exact hi.of_call hstep hlength hctl'
          ⟨overwritten_applyUpdate hp hi.schema hi.made, hp.versions.trans (.of_eq rfl)⟩
      · exact hi.of_loop hstep hlength hctl' hrec
  | @link u op x other head hctl =>
      obtain rfl : u = t := hown
      have hlength := (writeStep_link hctl head).length
      by_cases hrec : other = rec
      · subst hrec
        obtain ⟨rfl, rfl, hp⟩ := hi.progress op x _ hctl
        have hfound := hc rfl _ x head hctl
        exact hi.of_call hstep hlength (by simp [Db.link, hfound, setPc])
          (progress_link hp.1 hfound)
      · obtain ⟨pc, hctl'⟩ := s.link_ctl u op x other head
        exact hi.of_loop hstep hlength hctl' hrec

theorem updateInv_step {a : Action} (hi : UpdateInv s₀ t chunk slot rec s)
    (hc : SwapsFindHead t rec s a) (h : s.step a = some s') :
    UpdateInv s₀ t chunk slot rec s' := by
  by_cases hown : a.txn = t
  · exact hi.of_own hc (stepped_of_step h) hown
  · exact hi.of_other (Ne.symm hown) (stepped_of_step h)

/-! ## The whole call -/

theorem latchInv_reachable (hr : txnSystem.Reachable s) : s.LatchInv := by
  refine hr.invariant (P := LatchInv) ?_ fun s a s' hi _ hs => latchInv_step hi (stepped_of_step hs)
  rintro s ⟨-, -, htxns, -⟩ t op slot rec pc hctl
  simp [htxns] at hctl

theorem updateInv_start (hi : s₀.LatchInv)
    (h : s₀.step (.write t (.update chunk) slot) = some s) :
    UpdateInv s₀ t chunk slot (s₀.txns t).undo.length s := by
  have hstep := stepped_of_step h
  have hlatch := latchInv_step hi hstep
  cases hstep with
  | start hctl halloc hfree =>
      refine ⟨hlatch, rfl, halloc, by simp [startWrite], by simp [startWrite], ?_⟩
      intro op x pc hw
      simp only [startWrite, setTxn_txns, update_self, Ctl.writing.injEq, true_and] at hw
      obtain ⟨rfl, rfl, rfl⟩ := hw
      exact ⟨rfl, rfl, rfl, .of_eq rfl⟩

/-- What an update promises for what it returns: `s₀` is the state it was called in. -/
def UpdatePromise (s₀ s : Db) (t : TxnId) (chunk : DataChunk) (slot : Slot) : Bool → Prop
  | false => s.rows slot = s₀.rows slot ∧ ExtendedByOthers s₀ s t slot
  | true => ∃ r, ⟨t, (s₀.txns t).undo.length⟩ ∈ s.versions slot ∧
      s.record ⟨t, (s₀.txns t).undo.length⟩ = some r ∧
      ∀ oid ∈ chunk.getColumnIds, oid ∈ (s₀.schema slot.tbl).columns →
        r.delta.get oid = some (s₀.rows slot ((s₀.schema slot.tbl).position oid))

theorem Progress.promise {ok : Bool}
    (h : Progress s₀ s t chunk slot (s₀.txns t).undo.length (.exit ok)) :
    UpdatePromise s₀ s t chunk slot ok := by
  cases ok with
  | false => exact ⟨h.rows, h.versions⟩
  | true =>
      obtain ⟨r, hr, hdelta⟩ := h.1.record
      refine ⟨r, h.2, hr, ?_⟩
      intro oid hmem hcol
      rw [hdelta]
      exact get_updateSingle _ hmem hcol

/-- **An update whose swaps find the heads that it has loaded changes nothing when it
returns false, and keeps the before-image when it returns true.** -/
theorem update_all_or_nothing (hr : txnSystem.Reachable s₀)
    (hcall : s₀.step (.write t (.update chunk) slot) = some s)
    (hrun : txnSystem.Steps (SwapsFindHead t (s₀.txns t).undo.length) s s') (ok : Bool)
    (hctl : (s'.txns t).ctl = .writing (.update chunk) slot (s₀.txns t).undo.length (.exit ok)) :
    UpdatePromise s₀ (s'.finishWrite t (.update chunk) slot ok) t chunk slot ok := by
  have hi := hrun.invariant (P := UpdateInv s₀ t chunk slot (s₀.txns t).undo.length)
    (fun s a s' hi hc hs => updateInv_step hi hc hs)
    (updateInv_start (latchInv_reachable hr) hcall)
  obtain ⟨-, -, hp⟩ := hi.progress _ _ _ hctl
  have hpromise := hp.promise
  cases ok with
  | false => exact hpromise
  | true =>
      obtain ⟨r, hmem, hrecord, hdelta⟩ := hpromise
      refine ⟨r, hmem, ?_, hdelta⟩
      unfold Db.record at hrecord ⊢
      simpa [finishWrite] using hrecord

/-- One stored tuple with one column that holds zero. -/
def oneTuple : Db :=
  { empty with schema := fun _ => ⟨[3], by decide⟩, count := fun _ _ => 1, rows := fun _ _ => [0] }

theorem oneTuple_init : oneTuple.Init :=
  ⟨rfl, rfl, fun _ => rfl, fun _ => rfl, fun _ _ => rfl⟩

/-- The tuple of `oneTuple`. -/
def theTuple : Slot := ⟨1, 1, 0⟩

/-- The column is to hold one. -/
def setOne : DataChunk := [(3, [1])]

/-- The swap that the transaction is about to make finds the head that its loop has loaded. -/
def findsHead (s : Db) (t : TxnId) : Bool :=
  match (s.txns t).ctl with
  | .writing _ slot _ (.link head) => (s.versions slot).head? == head
  | _ => true

theorem swapsFindHead_of_findsHead {s : Db} {t : TxnId} {rec : Nat} {a : Action}
    (h : s.findsHead t = true) : SwapsFindHead t rec s a := by
  intro _ op slot head hctl
  unfold findsHead at h
  rw [hctl] at h
  exact eq_of_beq h

/-- Transaction 1 is to delete the tuple that transaction 0 updates: it loads the head and finds no
conflict, but transaction 0 swaps first. Its own swap fails, and it gives up in the second pass. -/
def deleteTooLate : List Action :=
  [.write 1 .deleteRaw theTuple, .run 1, .run 1, .run 0, .run 0, .run 0, .run 0, .run 1, .run 1,
    .run 1]

theorem update_all_or_nothing_beside :
    ∃ s₀ s s' : Db, txnSystem.exec TSys.Always oneTuple [.begin 0, .spin 0, .begin 1, .spin 1] =
        some s₀ ∧
      s₀.step (.write 0 (.update setOne) theTuple) = some s ∧
      txnSystem.Steps (SwapsFindHead 0 (s₀.txns 0).undo.length) s s' ∧
      (s'.txns 1).ctl = .writing .deleteRaw theTuple 0 (.exit false) ∧
      UpdatePromise s₀ (s'.finishWrite 0 (.update setOne) theTuple true) 0 setOne
        theTuple true := by
  let begins : List Action := [.begin 0, .spin 0, .begin 1, .spin 1]
  let s₀ := (txnSystem.exec TSys.Always oneTuple begins).get (by decide)
  have h₀ : txnSystem.exec TSys.Always oneTuple begins = some s₀ := (Option.some_get _).symm
  let s := s₀.startWrite 0 (.update setOne) theTuple
  let s' := (txnSystem.exec (fun s _ => s.findsHead 0 = true) s deleteTooLate).get (by decide)
  have hs' : txnSystem.exec (fun s _ => s.findsHead 0 = true) s deleteTooLate = some s' :=
    (Option.some_get _).symm
  have hsteps : txnSystem.Steps (SwapsFindHead 0 (s₀.txns 0).undo.length) s s' :=
    (TSys.Steps.of_exec _ hs').mono fun _ _ h => swapsFindHead_of_findsHead h
  exact ⟨s₀, s, s', h₀, rfl, hsteps, by decide,
    update_all_or_nothing ⟨oneTuple, oneTuple_init, .of_exec _ h₀⟩ rfl hsteps true (by decide)⟩

/-- Transaction 0 has begun to update the tuple and overwritten it; transaction 1
deletes the tuple; then transaction 0 swaps, finds another head and gives up. -/
def deleteMeanwhile : List Action :=
  [.run 0, .run 0, .run 0, .write 1 .deleteRaw theTuple, .run 1, .run 1, .run 1, .run 0, .run 0,
    .run 0]

/-- The update that returns false has changed the row. -/
theorem update_half_done :
    ¬ ∀ (s₀ s s' : Db) (t : TxnId) (chunk : DataChunk) (slot : Slot) (ok : Bool),
      txnSystem.Reachable s₀ → s₀.step (.write t (.update chunk) slot) = some s →
      txnSystem.Steps TSys.Always s s' →
      (s'.txns t).ctl = .writing (.update chunk) slot (s₀.txns t).undo.length (.exit ok) →
      UpdatePromise s₀ (s'.finishWrite t (.update chunk) slot ok) t chunk slot ok := by
  intro hall
  let begins : List Action := [.begin 0, .spin 0, .begin 1, .spin 1]
  let s₀ := (txnSystem.exec TSys.Always oneTuple begins).get (by decide)
  have h₀ : txnSystem.exec TSys.Always oneTuple begins = some s₀ := (Option.some_get _).symm
  let s := s₀.startWrite 0 (.update setOne) theTuple
  let s' := (txnSystem.exec TSys.Always s deleteMeanwhile).get (by decide)
  have hs' : txnSystem.exec TSys.Always s deleteMeanwhile = some s' := (Option.some_get _).symm
  have hpromise := hall s₀ s s' 0 setOne theTuple false ⟨oneTuple, oneTuple_init, .of_exec _ h₀⟩ rfl
    (.of_exec _ hs') (by decide)
  exact absurd (congrFun hpromise.1 0) (by decide)

end Db

end Db7
