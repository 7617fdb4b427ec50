import Db7.Access.Table

/-!
# First updater wins

A write loads the head of a version chain, tests it and swaps its record in
when the head is still the one it loaded. What the test found stays true until
the swap, because a version that is committed never changes again and a
transaction's own versions stay its own (`Evolves`). The chain is then ordered
(`Above`):

* two records of one transaction stand in creation order;
* a record above another transaction's is by a writer that started after the
  lower one was committed.
-/

namespace Db7

open Lib Function

/-- The head of the chain that a write has loaded. -/
def WritePc.head : WritePc → Option RecPtr
  | .check head | .apply head | .link head => head
  | .load | .exit _ => none

/-- The write has tested the head. -/
def WritePc.tested : WritePc → Bool
  | .apply _ | .link _ => true
  | .load | .check _ | .exit _ => false

theorem Txn.stampAt_cases (x : Txn) (j : Nat) :
    x.stampAt j = x.finish ∨ x.commitTime = some (x.stampAt j) := by
  unfold stampAt commitTime
  split
  · split
    · exact .inr rfl
    · exact .inl rfl
  · exact .inr rfl
  · exact .inl rfl

/-- The restamping loop goes up: below a record with the commit time all have
it. -/
theorem Txn.stampAt_of_lt {x : Txn} {i j : Nat} (hlt : i < j)
    (h : x.commitTime = some (x.stampAt j)) : x.stampAt i = x.stampAt j := by
  unfold stampAt commitTime at *
  split at h <;> simp_all
  rename_i c next _
  by_cases hj : j < next
  · rw [if_pos (by omega), if_pos hj]
  · simp [hj, h (by omega)]

namespace Db

/-- The timestamp of the record behind a pointer. -/
def stamp (s : Db) (p : RecPtr) : Nat := (s.txns p.owner).stampAt p.idx

/-- The record behind a pointer exists. -/
def Valid (s : Db) (p : RecPtr) : Prop := p.idx < (s.txns p.owner).undo.length

/-- The version is committed, at or before `start`. -/
def CommittedBy (s : Db) (start : Nat) (p : RecPtr) : Prop :=
  isCommitted (s.stamp p) = true ∧ s.stamp p ≤ start

/-- `p` may stand above `q` in a version chain. -/
def Above (s : Db) (p q : RecPtr) : Prop :=
  if p.owner = q.owner then q.idx < p.idx else s.CommittedBy (s.txns p.owner).start q

/-- What a write at `pc` relies on. -/
structure LoopOk (s : Db) (t : TxnId) (slot : Slot) (rec : Nat) (pc : WritePc) : Prop where
  last : rec + 1 = (s.txns t).undo.length
  allocated : slot.idx < s.count slot.tbl slot.pid
  valid : ∀ p, pc.head = some p → s.Valid p
  tested : pc.tested = true → ∀ p, pc.head = some p →
    p.owner = t ∨ s.CommittedBy (s.txns t).start p
  fresh : pc ≠ .exit true → ∀ x, ⟨t, rec⟩ ∉ s.versions x
  linked : pc = .exit true → ⟨t, rec⟩ ∈ s.versions slot

/-- The version chains of all tuples, and the writes under way. -/
structure ChainInv (s : Db) : Prop where
  valid : ∀ x, ∀ p ∈ s.versions x, s.Valid p
  ordered : ∀ x, (s.versions x).Pairwise s.Above
  loop : ∀ t op slot rec pc, (s.txns t).ctl = .writing op slot rec pc →
    s.LoopOk t slot rec pc
  returned : ∀ t op slot, (op, slot, true) ∈ (s.txns t).returned →
    slot.idx < s.count slot.tbl slot.pid ∧ ∃ p ∈ s.versions slot, p.owner = t

/-! ## Committed versions do not change -/

/-- From one state to a later one, the records that exist stay, and those that
are committed keep their timestamp. -/
structure Evolves (s s' : Db) : Prop where
  start : ∀ u, 0 < (s.txns u).undo.length → (s'.txns u).start = (s.txns u).start
  length : ∀ u, (s.txns u).undo.length ≤ (s'.txns u).undo.length
  stamp : ∀ p, s.Valid p → isCommitted (s.stamp p) = true → s'.stamp p = s.stamp p

theorem Evolves.valid {s s' : Db} (h : Evolves s s') {p : RecPtr} (hp : s.Valid p) :
    s'.Valid p := lt_of_lt_of_le hp (h.length _)

theorem Evolves.committedBy {s s' : Db} (h : Evolves s s') {start : Nat} {p : RecPtr}
    (hp : s.Valid p) (hc : s.CommittedBy start p) : s'.CommittedBy start p := by
  have := h.stamp p hp hc.1
  exact ⟨this ▸ hc.1, this ▸ hc.2⟩

theorem Evolves.above {s s' : Db} (h : Evolves s s') {p q : RecPtr} (hp : s.Valid p)
    (hq : s.Valid q) (ha : s.Above p q) : s'.Above p q := by
  unfold Above at ha ⊢
  split
  · simpa [*] using ha
  · rw [h.start _ (Nat.zero_lt_of_lt hp)]
    exact h.committedBy hq (by simpa [*] using ha)

theorem Evolves.ordered {s s' : Db} (h : Evolves s s') {l : List RecPtr}
    (hv : ∀ p ∈ l, s.Valid p) (ho : l.Pairwise s.Above) : l.Pairwise s'.Above :=
  ho.imp_of_mem fun hp hq ha => h.above (hv _ hp) (hv _ hq) ha

/-- Only transaction `t` moves: it is enough to look at its records. -/
theorem Evolves.of_others {s s' : Db} {t : TxnId}
    (others : ∀ u, u ≠ t → s'.txns u = s.txns u)
    (start : 0 < (s.txns t).undo.length → (s'.txns t).start = (s.txns t).start)
    (length : (s.txns t).undo.length ≤ (s'.txns t).undo.length)
    (stamp : ∀ j < (s.txns t).undo.length, isCommitted ((s.txns t).stampAt j) = true →
      (s'.txns t).stampAt j = (s.txns t).stampAt j) : Evolves s s' := by
  refine ⟨fun u => ?_, fun u => ?_, fun p => ?_⟩
  · by_cases hu : u = t
    · subst hu; exact start
    · intro _; rw [others u hu]
  · by_cases hu : u = t
    · subst hu; exact length
    · rw [others u hu]
  · obtain ⟨u, j⟩ := p
    by_cases hu : u = t
    · subst hu; exact stamp j
    · intro _ _; simp only [Db.stamp]; rw [others u hu]

theorem evolves_write {s s' : Db} {t : TxnId} (w : WriteStep s t s') : Evolves s s' :=
  .of_others w.others (fun _ => w.start) w.length fun j _ _ => by
    rw [Txn.stampAt_of_running w.before, Txn.stampAt_of_running w.after, w.finish]

/-- Below the top bit, a timestamp that reads as committed is the commit time
of its owner. -/
theorem commitTime_of_isCommitted {s : Db} (h : CommitInv signBit s) {t : TxnId} {j : Nat}
    (hbegun : (s.txns t).ctl ≠ .idle)
    (hc : isCommitted ((s.txns t).stampAt j) = true) :
    (s.txns t).commitTime = some ((s.txns t).stampAt j) := by
  have hstart : (s.txns t).start < signBit :=
    lt_of_lt_of_le (h.below (t, false) _ (by simp [handedOut, hbegun])) h.time_le
  refine ((s.txns t).stampAt_cases j).resolve_left fun hfin => ?_
  rw [hfin, (h.ok t).finish hbegun, isCommitted_finishTimeOf hstart] at hc
  exact absurd hc (by simp)

/-- A transaction with records has begun. -/
theorem begun_of_valid {bound : Nat} {s : Db} (h : CommitInv bound s) {p : RecPtr}
    (hp : s.Valid p) : (s.txns p.owner).ctl ≠ .idle := by
  intro hidle
  have hundo := (h.ok p.owner).fresh (.inl hidle)
  simp [Valid, hundo] at hp

theorem evolves_of_step {s s' : Db} {a : Action} (h : CommitInv signBit s)
    (hs : Stepped s a s') : Evolves s s' := by
  rcases hs.kind with ⟨t, rfl, hctl, rfl⟩ | ⟨t, rfl, hctl, rfl⟩ | ⟨t, rfl, hctl, rfl⟩ |
    ⟨t, rfl, hctl, rfl⟩ | ⟨t, c, i, rfl, hctl, hi, rfl⟩ | ⟨t, c, i, rfl, hctl, hi, rfl⟩ |
    ⟨t, w⟩
  · have hundo := (h.ok t).fresh (.inl hctl)
    exact .of_others (t := t) (fun u hu => by simp [hu]) (by simp [hundo]) (by simp [hundo])
      (by simp [hundo])
  · have hundo := (h.ok t).fresh (.inr hctl)
    have others : ∀ u, u ≠ t → (s.tryLatch t).txns u = s.txns u := by
      intro u hu
      unfold tryLatch
      split <;> simp [hu]
    exact .of_others (t := t) others (by simp [hundo]) (by simp [hundo]) (by simp [hundo])
  · exact .of_others (t := t) (fun u hu => by simp [hu]) (by simp) (by simp)
      (by simp [Txn.stampAt, hctl])
  · exact .of_others (t := t) (fun u hu => by simp [hu]) (by simp) (by simp)
      (by simp [Txn.stampAt, hctl])
  · refine .of_others (t := t) (fun u hu => by simp [restampOne, hu]) (by simp [restampOne])
      (by simp [restampOne]) fun j _ hc => ?_
    -- a record that is committed already lies below the loop index
    have hcommit := commitTime_of_isCommitted h (by simp [hctl]) hc
    simp only [Txn.commitTime, hctl, Option.some.injEq] at hcommit
    rw [← hcommit]
    simp only [restampOne, setTxn_txns, update_self, Txn.stampAt]
    split
    · rfl
    · simp only [Txn.stampAt, hctl] at hcommit
      rw [if_neg (by omega)] at hcommit
      exact hcommit.symm
  · refine .of_others (t := t) (fun u hu => by simp [hu]) (by simp) (by simp) fun j hj _ => ?_
    simp only [unlockLatch_txns, update_self, Txn.stampAt, hctl]
    rw [if_pos (by omega)]
  · exact evolves_write w

/-! ## What the test of the head establishes -/

/-- A timestamp that reads as uncommitted is the finish time of its owner. -/
theorem stamp_of_not_isCommitted {s : Db} (h : CommitInv signBit s) {p : RecPtr}
    (hc : isCommitted (s.stamp p) = false) : s.stamp p = (s.txns p.owner).finish := by
  refine ((s.txns p.owner).stampAt_cases p.idx).resolve_right fun hcommit => ?_
  have hlt := lt_of_lt_of_le (h.below (p.owner, true) _ hcommit) h.time_le
  rw [stamp, isCommitted_of_lt hlt] at hc
  exact absurd hc (by simp)

/-- Finish times identify transactions. -/
theorem finish_inj {s : Db} (h : CommitInv signBit s) {t u : TxnId}
    (ht : (s.txns t).ctl ≠ .idle) (hu : (s.txns u).ctl ≠ .idle)
    (heq : (s.txns t).finish = (s.txns u).finish) : t = u := by
  have hout : ∀ v, (s.txns v).ctl ≠ .idle → s.handedOut (v, false) = some (s.txns v).start := by
    intro v hv
    simp [handedOut, hv]
  have hlt : ∀ v, (s.txns v).ctl ≠ .idle → (s.txns v).start < signBit := fun v hv =>
    lt_of_lt_of_le (h.below _ _ (hout v hv)) h.time_le
  rw [(h.ok t).finish ht, (h.ok u).finish hu] at heq
  have hstart := finishTimeOf_inj (hlt t ht) (hlt u hu) heq
  exact congrArg Prod.fst (h.distinct _ _ _ (hout t ht) (hstart ▸ hout u hu))

theorem record_timestamp {bound : Nat} {s : Db} (h : CommitInv bound s) {p : RecPtr}
    {r : UndoRecord} (hr : s.record p = some r) : r.timestamp = s.stamp p :=
  (h.ok p.owner).stamps p.idx r hr

theorem exists_record {s : Db} {p : RecPtr} (hp : s.Valid p) : ∃ r, s.record p = some r :=
  ⟨_, List.getElem?_eq_getElem hp⟩

/-- A version in no conflict with `t` is its own or was committed at or before
its start. -/
theorem own_or_committedBy {s : Db} (h : CommitInv signBit s) {t : TxnId} {p : RecPtr}
    (ht : (s.txns t).ctl ≠ .idle) (hp : s.Valid p)
    (hc : s.hasConflict (s.txns t) (some p) = false) :
    p.owner = t ∨ s.CommittedBy (s.txns t).start p := by
  obtain ⟨r, hr⟩ := exists_record hp
  simp only [hasConflict, Option.bind_some, hr, record_timestamp h hr] at hc
  obtain ⟨hown, hold⟩ := hasConflictTs_eq_false.mp hc
  cases hcom : isCommitted (s.stamp p) with
  | true => exact .inr ⟨hcom, hold hcom⟩
  | false =>
      refine .inl (finish_inj h (begun_of_valid h hp) ht ?_)
      rw [← stamp_of_not_isCommitted h hcom, hown hcom]

theorem hasConflict_of_not_blocked {s : Db} {x : Txn} {slot : Slot} {head : Option RecPtr}
    {op : WriteOp} (h : s.blocked x slot head op = false) : s.hasConflict x head = false := by
  cases head with
  | none => rfl
  | some p => cases op <;> simp [blocked] at h <;> exact h.1

/-- Below a committed version of a transaction its older ones are committed
with the same timestamp. -/
theorem stamp_eq_of_lt {s : Db} (h : CommitInv signBit s) {p q : RecPtr} (hp : s.Valid p)
    (ho : p.owner = q.owner) (hlt : q.idx < p.idx) (hc : isCommitted (s.stamp p) = true) :
    s.stamp q = s.stamp p := by
  have hcommit := commitTime_of_isCommitted h (begun_of_valid h hp) hc
  unfold stamp
  rw [← ho]
  exact Txn.stampAt_of_lt hlt hcommit

/-- The record swapped in over a tested head may stand above the whole chain. -/
theorem above_chain {s : Db} (h : CommitInv signBit s) (hi : ChainInv s) {t : TxnId}
    {slot : Slot} {rec : Nat} (hrec : rec + 1 = (s.txns t).undo.length)
    (hfresh : ⟨t, rec⟩ ∉ s.versions slot)
    (htested : ∀ p, (s.versions slot).head? = some p →
      p.owner = t ∨ s.CommittedBy (s.txns t).start p) :
    ∀ q ∈ s.versions slot, s.Above ⟨t, rec⟩ q := by
  intro q hq
  have hvalid := hi.valid slot q hq
  unfold Above
  split
  · rename_i ho
    obtain ⟨owner, idx⟩ := q
    obtain rfl : t = owner := ho
    have hne : idx ≠ rec := by
      rintro rfl
      exact hfresh hq
    simp only [Valid] at hvalid
    simp only
    omega
  · rename_i ho
    obtain ⟨p, rest, hchain⟩ := List.exists_cons_of_ne_nil (List.ne_nil_of_mem hq)
    have hp := htested p (by simp [hchain])
    have hord := hi.ordered slot
    have hpv := hi.valid slot p (by simp [hchain])
    rw [hchain] at hord hq
    rcases List.mem_cons.mp hq with rfl | hrest
    · exact hp.resolve_left fun h => ho h.symm
    · have habove := (List.pairwise_cons.mp hord).1 q hrest
      unfold Above at habove
      rcases hp with rfl | ⟨hpc, hple⟩
      · rwa [if_neg ho] at habove
      · split at habove
        · rename_i hpq
          have heq := stamp_eq_of_lt h hpv hpq habove hpc
          exact ⟨heq ▸ hpc, heq ▸ hple⟩
        · -- the lower writer had committed before the head's writer started
          have hlt := (h.ok p.owner).commit _
            (commitTime_of_isCommitted h (begun_of_valid h hpv) hpc)
          exact ⟨habove.1, le_trans habove.2 (le_trans (Nat.le_of_lt hlt) hple)⟩

/-! ## Every step keeps the chains -/

/-- What a step of `t` may do to the version chain of a tuple. -/
inductive ChainStep (s s' : Db) (t : TxnId) (x : Slot) : Prop
  | same : s'.versions x = s.versions x → ChainStep s s' t x
  | push (p) : p.owner = t → s'.Valid p → s'.versions x = p :: s.versions x →
      (∀ q ∈ s.versions x, s'.Above p q) → ChainStep s s' t x
  | fresh (p) : s.count x.tbl x.pid ≤ x.idx → p.owner = t → s'.Valid p →
      s'.versions x = [p] → ChainStep s s' t x

theorem ChainStep.mem {s s' : Db} {t : TxnId} {x : Slot} (h : ChainStep s s' t x) {p : RecPtr}
    (hp : p ∈ s'.versions x) : p ∈ s.versions x ∨ p.owner = t ∧ s'.Valid p := by
  cases h with
  | same h => exact .inl (h ▸ hp)
  | push q ho hv h _ =>
      rw [h] at hp
      rcases List.mem_cons.mp hp with rfl | hp
      · exact .inr ⟨ho, hv⟩
      · exact .inl hp
  | fresh q _ ho hv h =>
      rw [h] at hp
      obtain rfl := List.mem_singleton.mp hp
      exact .inr ⟨ho, hv⟩

/-- A tuple's chain only grows. -/
theorem ChainStep.keeps {s s' : Db} {t : TxnId} {x : Slot} (h : ChainStep s s' t x)
    (hx : x.idx < s.count x.tbl x.pid) {p : RecPtr} (hp : p ∈ s.versions x) :
    p ∈ s'.versions x := by
  cases h with
  | same h => exact h ▸ hp
  | push q _ _ h _ => exact h ▸ List.mem_cons_of_mem _ hp
  | fresh q hle _ _ _ => exact absurd hx (Nat.not_lt.mpr hle)

/-- A write under way survives the steps of the other transactions. -/
theorem LoopOk.frame {s s' : Db} {t u : TxnId} {slot : Slot} {rec : Nat} {pc : WritePc}
    (h : s.LoopOk u slot rec pc) (ev : Evolves s s') (hu : u ≠ t)
    (htxn : s'.txns u = s.txns u) (hcount : ∀ a b, s.count a b ≤ s'.count a b)
    (hchain : ∀ x, ChainStep s s' t x) : s'.LoopOk u slot rec pc where
  last := by rw [htxn]; exact h.last
  allocated := lt_of_lt_of_le h.allocated (hcount _ _)
  valid p hp := ev.valid (h.valid p hp)
  tested ht p hp := by
    rw [htxn]
    exact (h.tested ht p hp).imp_right (ev.committedBy (h.valid p hp))
  fresh hpc x hmem := by
    rcases (hchain x).mem hmem with hold | ⟨ho, -⟩
    · exact h.fresh hpc x hold
    · exact hu ho
  linked hpc := (hchain slot).keeps h.allocated (h.linked hpc)

theorem ChainInv.of_step {s s' : Db} {t : TxnId} (h : ChainInv s) (ev : Evolves s s')
    (others : ∀ u, u ≠ t → s'.txns u = s.txns u)
    (hcount : ∀ a b, s.count a b ≤ s'.count a b) (hchain : ∀ x, ChainStep s s' t x)
    (hloop : ∀ op slot rec pc, (s'.txns t).ctl = .writing op slot rec pc →
      s'.LoopOk t slot rec pc)
    (hreturned : ∀ op slot, (op, slot, true) ∈ (s'.txns t).returned →
      (op, slot, true) ∈ (s.txns t).returned ∨
        slot.idx < s.count slot.tbl slot.pid ∧ ∃ p ∈ s.versions slot, p.owner = t) :
    ChainInv s' where
  valid x p hp := by
    rcases (hchain x).mem hp with hold | ⟨-, hv⟩
    · exact ev.valid (h.valid x p hold)
    · exact hv
  ordered x := by
    have hold := ev.ordered (h.valid x) (h.ordered x)
    cases hchain x with
    | same hx => rwa [hx]
    | push p _ _ hx habove => exact hx ▸ List.pairwise_cons.mpr ⟨habove, hold⟩
    | fresh p _ _ _ hx => exact hx ▸ List.pairwise_singleton _ _
  loop u op slot rec pc hctl := by
    by_cases hu : u = t
    · subst hu; exact hloop op slot rec pc hctl
    · rw [others u hu] at hctl
      exact (h.loop u op slot rec pc hctl).frame ev hu (others u hu) hcount hchain
  returned u op slot hr := by
    have hold : slot.idx < s.count slot.tbl slot.pid ∧ ∃ p ∈ s.versions slot, p.owner = u := by
      by_cases hu : u = t
      · subst hu
        rcases hreturned op slot hr with hr | hnew
        · exact h.returned u op slot hr
        · exact hnew
      · rw [others u hu] at hr
        exact h.returned u op slot hr
    obtain ⟨hlt, p, hp, ho⟩ := hold
    exact ⟨lt_of_lt_of_le hlt (hcount _ _), p, (hchain slot).keeps hlt hp, ho⟩

/-- A step that links no record and is not inside a write afterwards. -/
theorem ChainInv.of_same {s s' : Db} {t : TxnId} (h : ChainInv s) (ev : Evolves s s')
    (others : ∀ u, u ≠ t → s'.txns u = s.txns u) (hcount : s'.count = s.count)
    (hversions : s'.versions = s.versions)
    (hctl : ∀ op slot rec pc, (s'.txns t).ctl ≠ .writing op slot rec pc)
    (hreturned : (s'.txns t).returned = (s.txns t).returned ∨ (s'.txns t).returned = []) :
    ChainInv s' := by
  refine h.of_step ev others (fun a b => hcount ▸ le_rfl) (fun x => .same (by rw [hversions]))
    (fun op slot rec pc hc => absurd hc (hctl op slot rec pc)) fun op slot hr => ?_
  rcases hreturned with hsame | hnil
  · exact .inl (hsame ▸ hr)
  · simp [hnil] at hr

/-- A step of a write that links no record: its new program counter is to be
justified. -/
theorem ChainInv.of_pc {s s' : Db} {t : TxnId} {op : WriteOp} {slot : Slot} {rec : Nat}
    {pc : WritePc} (pc' : WritePc) (h : ChainInv s) (ev : Evolves s s')
    (others : ∀ u, u ≠ t → s'.txns u = s.txns u) (hcount : s'.count = s.count)
    (hversions : s'.versions = s.versions)
    (hctl : (s.txns t).ctl = .writing op slot rec pc)
    (hctl' : (s'.txns t).ctl = .writing op slot rec pc')
    (hlength : (s'.txns t).undo.length = (s.txns t).undo.length)
    (hstart : (s'.txns t).start = (s.txns t).start)
    (hreturned : (s'.txns t).returned = (s.txns t).returned)
    (hpc : pc ≠ .exit true) (hpc' : pc' ≠ .exit true)
    (hvalid : ∀ p, pc'.head = some p → s.Valid p)
    (htested : pc'.tested = true → ∀ p, pc'.head = some p →
      p.owner = t ∨ s.CommittedBy (s.txns t).start p) : ChainInv s' := by
  refine h.of_step ev others (fun a b => hcount ▸ le_rfl) (fun x => .same (by rw [hversions]))
    (fun op₁ slot₁ rec₁ pc₁ hc => ?_) fun _ _ hr => .inl (hreturned ▸ hr)
  have hold := h.loop _ _ _ _ _ hctl
  rw [hctl', Ctl.writing.injEq] at hc
  obtain ⟨rfl, rfl, rfl, rfl⟩ := hc
  exact {
    last := by rw [hlength]; exact hold.last
    allocated := hcount ▸ hold.allocated
    valid := fun p hp => ev.valid (hvalid p hp)
    tested := fun ht p hp => by
      rw [hstart]
      exact (htested ht p hp).imp_right (ev.committedBy (hvalid p hp))
    fresh := fun _ x => hversions ▸ hold.fresh hpc x
    linked := fun he => absurd he hpc' }

section Steps

variable {s : Db} {t : TxnId} {op : WriteOp} {slot : Slot} {rec : Nat} {head : Option RecPtr}

theorem chainInv_insert (hi : ChainInv s) (hctl : (s.txns t).ctl = .active) {tbl pid : Nat}
    {chunk : DataChunk} : ChainInv (s.insertTuple t tbl pid chunk) := by
  have w := writeStep_insert tbl pid chunk hctl
  refine hi.of_step (evolves_write w) w.others (fun a b => ?_) (fun x => ?_) ?_ ?_
  · by_cases ha : a = tbl
    · subst ha
      by_cases hb : b = pid
      · subst hb; simp [insertTuple]
      · simp [insertTuple, hb]
    · simp [insertTuple, ha]
  · by_cases hx : x = ⟨tbl, pid, s.count tbl pid⟩
    · subst hx
      exact .fresh ⟨t, (s.txns t).undo.length⟩ le_rfl rfl (by simp [Valid, insertTuple])
        (by simp [insertTuple])
    · exact .same (by simp [insertTuple, hx])
  · intro op slot rec pc hc
    simp [insertTuple, hctl] at hc
  · intro op slot hr
    exact .inl (by simpa [insertTuple] using hr)

theorem chainInv_start (hi : ChainInv s) (hctl : (s.txns t).ctl = .active)
    (halloc : slot.idx < s.count slot.tbl slot.pid) : ChainInv (s.startWrite t op slot) := by
  have w := writeStep_start op slot hctl
  refine hi.of_step (evolves_write w) w.others (fun a b => le_rfl) (fun x => .same rfl) ?_ ?_
  · intro op' slot' rec pc hc
    simp only [startWrite, setTxn_txns, update_self, Ctl.writing.injEq] at hc
    obtain ⟨rfl, rfl, rfl, rfl⟩ := hc
    refine ⟨by simp [startWrite], halloc, by simp [WritePc.head], by simp [WritePc.tested], ?_,
      by simp⟩
    -- the chains only hold records that existed before
    intro _ x hmem
    have := hi.valid x _ hmem
    simp [Valid] at this
  · intro op' slot' hr
    exact .inl (by simpa [startWrite] using hr)

theorem chainInv_load (hi : ChainInv s) (hctl : (s.txns t).ctl = .writing op slot rec .load) :
    ChainInv (s.setTxn t (setPc (s.txns t) op slot rec (.check (s.versions slot).head?))) := by
  have w := writeStep_setPc hctl (.check (s.versions slot).head?)
  refine hi.of_pc (.check (s.versions slot).head?) (evolves_write w) w.others rfl rfl hctl
    (by simp [setPc]) (by simp [setPc]) w.start (by simp [setPc]) (by simp) (by simp) ?_
    (by simp [WritePc.tested])
  intro p hp
  exact hi.valid slot p (List.mem_of_head? hp)

theorem chainInv_check (h : CommitInv signBit s) (hi : ChainInv s)
    (hctl : (s.txns t).ctl = .writing op slot rec (.check head)) :
    ChainInv (s.checkHead t op slot rec head) := by
  have w := writeStep_check hctl head
  have hold := hi.loop _ _ _ _ _ hctl
  simp only [checkHead] at w ⊢
  split
  · rename_i hb
    rw [if_pos hb] at w
    exact hi.of_pc (.exit false) (evolves_write w) w.others rfl rfl hctl (by simp [setPc])
      (by simp [setPc]) w.start (by simp [setPc]) (by simp) (by simp) (by simp [WritePc.head])
      (by simp [WritePc.tested])
  · rename_i hb
    rw [if_neg hb] at w
    have hhead : (passed head op).head = head := by cases op <;> rfl
    refine hi.of_pc (passed head op) (evolves_write w) w.others rfl rfl hctl (by simp [setPc])
      (by simp [setPc]) w.start (by simp [setPc]) (by simp) (by cases op <;> simp [passed]) ?_
      fun _ => ?_
    · rw [hhead]; exact hold.valid
    · rw [hhead]
      rintro p rfl
      exact own_or_committedBy h (by simp [hctl]) (hold.valid p rfl)
        (hasConflict_of_not_blocked (by simpa using hb))

theorem chainInv_apply (hi : ChainInv s) {chunk : DataChunk}
    (hctl : (s.txns t).ctl = .writing (.update chunk) slot rec (.apply head)) :
    ChainInv (s.applyUpdate t chunk slot rec head) := by
  have w := writeStep_apply hctl
  have hold := hi.loop _ _ _ _ _ hctl
  exact hi.of_pc (.link head) (evolves_write w) w.others rfl rfl hctl
    (by simp [applyUpdate, setPc]) (by simp [applyUpdate, setPc]) w.start
    (by simp [applyUpdate, setPc]) (by simp) (by simp) hold.valid fun _ => hold.tested rfl

theorem chainInv_link (h : CommitInv signBit s) (hi : ChainInv s)
    (hctl : (s.txns t).ctl = .writing op slot rec (.link head)) :
    ChainInv (s.link t op slot rec head) := by
  have w := writeStep_link hctl head
  have hold := hi.loop _ _ _ _ _ hctl
  have hfresh := hold.fresh (by simp)
  unfold link at w ⊢
  split
  · rename_i hcas
    rw [if_pos hcas] at w
    have ev := evolves_write w
    have hvalid : s.Valid ⟨t, rec⟩ := by
      have := hold.last
      simp only [Valid]
      omega
    refine hi.of_step ev w.others (fun a b => le_rfl) (fun x => ?_) ?_ ?_
    · by_cases hx : x = slot
      · subst hx
        have habove := above_chain h hi hold.last (hfresh x) fun p hp =>
          hold.tested rfl p (hcas ▸ hp)
        exact .push ⟨t, rec⟩ rfl (ev.valid hvalid) (by simp) fun q hq =>
          ev.above hvalid (hi.valid x q hq) (habove q hq)
      · exact .same (by simp [hx])
    · intro op' slot' rec' pc hc
      simp only [setTxn_txns, update_self, setPc, Ctl.writing.injEq] at hc
      obtain ⟨rfl, rfl, rfl, rfl⟩ := hc
      exact ⟨by simpa [setPc] using hold.last, hold.allocated, by simp [WritePc.head],
        by simp [WritePc.tested], by simp, by simp⟩
    · intro op' slot' hr
      exact .inl (by simpa [setPc] using hr)
  · rename_i hcas
    rw [if_neg hcas] at w
    exact hi.of_pc .load (evolves_write w) w.others rfl rfl hctl (by simp [setPc])
      (by simp [setPc]) w.start (by simp [setPc]) (by simp) (by simp) (by simp [WritePc.head])
      (by simp [WritePc.tested])

theorem chainInv_exit (hi : ChainInv s) {ok : Bool}
    (hctl : (s.txns t).ctl = .writing op slot rec (.exit ok)) :
    ChainInv (s.finishWrite t op slot ok) := by
  have w := writeStep_exit hctl ok
  have hold := hi.loop _ _ _ _ _ hctl
  refine hi.of_step (evolves_write w) w.others (fun a b => le_rfl) (fun x => .same rfl) ?_ ?_
  · intro op' slot' rec' pc hc
    simp [finishWrite] at hc
  · intro op' slot' hr
    simp only [finishWrite, setTxn_txns, update_self, List.mem_cons, Prod.mk.injEq] at hr
    rcases hr with ⟨-, rfl, rfl⟩ | hr
    · exact .inr ⟨hold.allocated, _, hold.linked rfl, rfl⟩
    · exact .inl hr

end Steps

theorem chainInv_step {s s' : Db} {a : Action} (h : CommitInv signBit s) (hi : ChainInv s)
    (hs : Stepped s a s') : ChainInv s' := by
  have ev := evolves_of_step h hs
  cases hs with
  | @begin t hctl =>
      exact hi.of_same (t := t) ev (fun u hu => by simp [hu]) rfl rfl (by simp) (by simp)
  | @spin t hctl =>
      unfold tryLatch at ev ⊢
      split
      · exact hi
      · rename_i hl
        rw [if_neg hl] at ev
        exact hi.of_same (t := t) ev (fun u hu => by simp [hu]) rfl rfl (by simp) (by simp)
  | insert hctl _ => exact chainInv_insert hi hctl
  | start hctl halloc _ => exact chainInv_start hi hctl halloc
  | @lock t hctl =>
      exact hi.of_same (t := t) ev (fun u hu => by simp [hu]) rfl rfl (by simp) (by simp)
  | @checkOut t hctl =>
      exact hi.of_same (t := t) ev (fun u hu => by simp [hu]) rfl rfl (by simp) (by simp)
  | @restamp t c i hctl hlt =>
      exact hi.of_same (t := t) ev (fun u hu => by simp [restampOne, hu]) rfl rfl
        (by simp [restampOne]) (by simp [restampOne])
  | @unlock t c i hctl hle =>
      exact hi.of_same (t := t) ev (fun u hu => by simp [hu]) rfl rfl (by simp) (by simp)
  | load hctl => exact chainInv_load hi hctl
  | check hctl => exact chainInv_check h hi hctl
  | apply hctl => exact chainInv_apply hi hctl
  | link hctl => exact chainInv_link h hi hctl
  | exit hctl => exact chainInv_exit hi hctl

theorem chainInv_init {s : Db} (h : s.Init) : ChainInv s := by
  obtain ⟨-, -, htxns, hversions, -⟩ := h
  exact ⟨by simp [hversions], by simp [hversions], by simp [htxns], by simp [htxns]⟩

theorem chainInv_reachable {s : Db}
    (h : txnSystem.ReachableBy (HandsOutBelow signBit) s) : ChainInv s := by
  have hb : signBit < 2 ^ 64 := by decide
  obtain ⟨s₀, hinit, hrun⟩ := h
  exact hrun.invariant_of (fun _ _ _ h hc hs => commitInv_step hb h hc hs)
    (fun _ _ _ h hi _ hs => chainInv_step h hi (stepped_of_step hs)) (commitInv_init hinit)
    (chainInv_init hinit)

/-! ## Writers of one tuple -/

/-- One of the two committed at or before the start of the other. -/
def DisjointLifetimes (s : Db) (t u : TxnId) : Prop :=
  (∃ c, (s.txns t).commitTime = some c ∧ c ≤ (s.txns u).start) ∨
    ∃ c, (s.txns u).commitTime = some c ∧ c ≤ (s.txns t).start

/-- What `p` above `q` in a chain means for the timestamps of their records:
committed ones never increase going down, and uncommitted ones stand at the
head and belong to one transaction. -/
def StampsOrdered (s : Db) (p q : RecPtr) : Prop :=
  ∀ a b, s.record p = some a → s.record q = some b →
    (isCommitted a.timestamp = true →
      isCommitted b.timestamp = true ∧ b.timestamp ≤ a.timestamp) ∧
    (isCommitted b.timestamp = false → p.owner = q.owner)

/-- The writes of every tuple are serialized. -/
structure WritesSerialized (s : Db) : Prop where
  disjoint : ∀ slot t u op op', t ≠ u → (op, slot, true) ∈ (s.txns t).returned →
    (op', slot, true) ∈ (s.txns u).returned → s.DisjointLifetimes t u
  records : ∀ slot, ∀ p ∈ s.versions slot, ∃ r, s.record p = some r
  ordered : ∀ slot, (s.versions slot).Pairwise s.StampsOrdered

/-- A lower record of another transaction was committed before the upper one's
transaction started. -/
theorem committed_before {s : Db} (h : CommitInv signBit s) {p q : RecPtr} (hq : s.Valid q)
    (ho : p.owner ≠ q.owner) (ha : s.Above p q) :
    ∃ c, (s.txns q.owner).commitTime = some c ∧ c ≤ (s.txns p.owner).start := by
  rw [Above, if_neg ho] at ha
  exact ⟨_, commitTime_of_isCommitted h (begun_of_valid h hq) ha.1, ha.2⟩

theorem stampsOrdered_of_above {s : Db} (h : CommitInv signBit s) {p q : RecPtr}
    (hp : s.Valid p) (ha : s.Above p q) : s.StampsOrdered p q := by
  intro a b hra hrb
  rw [record_timestamp h hra, record_timestamp h hrb]
  by_cases ho : p.owner = q.owner
  · rw [Above, if_pos ho] at ha
    refine ⟨fun hc => ?_, fun _ => ho⟩
    have := stamp_eq_of_lt h hp ho ha hc
    exact ⟨this ▸ hc, le_of_eq this⟩
  · rw [Above, if_neg ho] at ha
    refine ⟨fun hc => ⟨ha.1, ?_⟩, fun hc => absurd ha.1 (by simp [hc])⟩
    have hlt := (h.ok p.owner).commit _
      (commitTime_of_isCommitted h (begun_of_valid h hp) hc)
    exact le_trans ha.2 (Nat.le_of_lt hlt)

theorem disjointLifetimes_of_mem {s : Db} (h : CommitInv signBit s) {l : List RecPtr}
    (hv : ∀ p ∈ l, s.Valid p) (ho : l.Pairwise s.Above) {p q : RecPtr} (hp : p ∈ l)
    (hq : q ∈ l) (hne : p.owner ≠ q.owner) : s.DisjointLifetimes p.owner q.owner := by
  have hrel : s.Above p q ∨ s.Above q p := by
    induction l with
    | nil => simp at hp
    | cons a rest ih =>
        obtain ⟨hhead, hrest⟩ := List.pairwise_cons.mp ho
        rcases List.mem_cons.mp hp with rfl | hp' <;> rcases List.mem_cons.mp hq with rfl | hq'
        · exact absurd rfl hne
        · exact .inl (hhead q hq')
        · exact .inr (hhead p hp')
        · exact ih (fun r hr => hv r (List.mem_cons_of_mem _ hr)) hrest hp' hq'
  rcases hrel with ha | ha
  · exact .inr (committed_before h (hv q hq) hne ha)
  · exact .inl (committed_before h (hv p hp) (Ne.symm hne) ha)

/-- What `first_updater_wins` says, where `Commit` walks over the records. -/
theorem writesSerialized_reachable {s : Db}
    (hr : txnSystem.ReachableBy (HandsOutBelow signBit) s) : s.WritesSerialized := by
  have h := commitInv_reachable (by decide) hr
  have hi := chainInv_reachable hr
  refine ⟨fun slot t u op op' hne ht hu => ?_, fun slot p hp => ?_, fun slot => ?_⟩
  · obtain ⟨-, p, hp, rfl⟩ := hi.returned t op slot ht
    obtain ⟨-, q, hq, rfl⟩ := hi.returned u op' slot hu
    exact disjointLifetimes_of_mem h (hi.valid slot) (hi.ordered slot) hp hq hne
  · exact exists_record (hi.valid slot p hp)
  · exact (hi.ordered slot).imp_of_mem fun hp _ ha =>
      stampsOrdered_of_above h (hi.valid slot _ hp) ha

/-- **First updater wins.** While timestamps stay below the bit that marks
uncommitted versions and every `Commit` visits all of its records, two
transactions that both wrote a tuple have disjoint lifetimes, and every version
chain has its uncommitted records at the head, owned by one transaction, above
committed ones that never increase. -/
theorem first_updater_wins {memory : UndoMemory} {x : WithUndo Db}
    (hr : (txnHost.withUndo memory).ReachableBy
      (txnHost.CommitsWhole memory (HandsOutBelow signBit)) x) :
    x.state.WritesSerialized :=
  writesSerialized_reachable (TxnHost.reachable_of_commitsWhole hr).1

/-- The first tuple of a page. -/
def firstSlot : Slot := ⟨1, 1, 0⟩

/-- Transaction 0 inserts a tuple, transaction 1 updates it and transaction 2,
begun after that commit, deletes it. -/
def updateThenDelete : List Action :=
  [.begin 0, .spin 0, .insert 0 1 1 [], .commit 0, .run 0, .run 0, .run 0,
    .begin 1, .spin 1, .write 1 (.update []) firstSlot, .run 1, .run 1, .run 1, .run 1, .run 1,
    .commit 1, .run 1, .run 1, .run 1,
    .begin 2, .spin 2, .write 2 .deleteRaw firstSlot, .run 2, .run 2, .run 2, .run 2]

theorem first_updater_wins_updateThenDelete :
    ∃ x : WithUndo Db, (txnHost.withUndo .zeroed).ReachableBy
        (txnHost.CommitsWhole .zeroed (HandsOutBelow signBit)) x ∧
      (WriteOp.update [], firstSlot, true) ∈ (x.state.txns 1).returned ∧
      (WriteOp.deleteRaw, firstSlot, true) ∈ (x.state.txns 2).returned ∧
        x.state.DisjointLifetimes 1 2 := by
  let s := (txnSystem.exec (HandsOutBelow signBit) empty updateThenDelete).get (by decide)
  have hs : txnSystem.exec (HandsOutBelow signBit) empty updateThenDelete = some s :=
    (Option.some_get _).symm
  have h1 : (WriteOp.update [], firstSlot, true) ∈ (s.txns 1).returned := by decide
  have h2 : (WriteOp.deleteRaw, firstSlot, true) ∈ (s.txns 2).returned := by decide
  obtain ⟨calls, hr, -⟩ := txnHost.exists_reachable ⟨empty, empty_init, .of_exec _ hs⟩
  exact ⟨⟨s, calls⟩, hr, h1, h2, (first_updater_wins hr).disjoint firstSlot 1 2 _ _
    (by decide) h1 h2⟩

/-- One stored tuple, not yet written to. -/
def stored : Db := { empty with count := fun _ _ => 1 }

theorem stored_init : stored.Init :=
  ⟨rfl, rfl, fun _ => rfl, fun _ => rfl, fun _ _ => rfl⟩

theorem quiet_afterBegins {s : Db} (hi : s.Init) (n : Nat) : (afterBegins s n).Quiet := by
  refine ⟨fun t => ?_, ?_, ?_⟩ <;> rw [afterBegins_eq hi]
  · simp only
    split
    · exact .inr (.inl rfl)
    · exact .inl rfl
  · exact hi.2.1
  · exact hi.2.2.2.2

theorem quiet_tableWrite {s : Db} (hq : s.Quiet) (t : TxnId) (op : WriteOp) (slot : Slot) :
    (s.tableWrite t op slot).Quiet := by
  have hctl : ∀ u, ((s.tableWrite t op slot).txns u).ctl = (s.txns u).ctl := by
    intro u
    by_cases hu : u = t
    · subst hu
      simp only [tableWrite]
      split <;> simp
    · simp only [tableWrite]
      split <;> simp [hu]
  have hlatch : (s.tableWrite t op slot).latch = s.latch ∧
      (s.tableWrite t op slot).commitLatch = s.commitLatch := by
    simp only [tableWrite]
    split <;> exact ⟨rfl, rfl⟩
  exact ⟨fun u => hctl u ▸ hq.ctl u, hlatch.2 ▸ hq.commitLatch, hlatch.1 ▸ hq.latch⟩

theorem reachable_tableWrite {s : Db} (hr : txnSystem.Reachable s) (hq : s.Quiet)
    (hv : s.HeadsValid) {t : TxnId} (hctl : (s.txns t).ctl = .active) (op : WriteOp)
    (slot : Slot) (halloc : slot.idx < s.count slot.tbl slot.pid) :
    txnSystem.Reachable (s.tableWrite t op slot) :=
  hr.steps ((@steps_tableWrite 0 s t op slot hq hv hctl halloc).mono fun _ _ _ => trivial)

section BothWrite

variable {s : Db} {a b : TxnId} {slot : Slot} (hne : b ≠ a)
  (ha : (s.txns a).undo = []) (hchain : s.versions slot = [])

include ha hchain

theorem tableWrite_deleteRaw_nil :
    s.tableWrite a .deleteRaw slot = { s.setTxn a { s.txns a with
        undo := [.initializeDelete (s.txns a).finish slot]
        returned := (.deleteRaw, slot, true) :: (s.txns a).returned } with
      versions := update s.versions slot [⟨a, 0⟩] } := by
  simp [tableWrite, hchain, blocked, ha, writePage, newRecord, UndoRecord.initializeDelete, setTxn]

include hne

/-- A version stamped 0 stops nobody. -/
theorem returned_tableWrite_tableWrite (hzero : (s.txns a).finish = 0)
    (hbit : s.deletedBit slot = false) :
    ∃ x, ((s.tableWrite a .deleteRaw slot).tableWrite b (.update []) slot).txns =
        update (s.tableWrite a .deleteRaw slot).txns b x ∧ x.ctl = (s.txns b).ctl ∧
      x.returned = (.update [], slot, true) :: (s.txns b).returned := by
  rw [tableWrite_deleteRaw_nil ha hchain]
  simp [tableWrite, blocked, hasConflict, record, hzero, hbit, hne, hasConflictTs, isCommitted,
    isNewerThan, UndoRecord.initializeDelete, writePage, signBit]
  exact ⟨_, rfl, rfl, rfl⟩

/-- A transaction with finish time 0 deletes, another one updates after it. -/
theorem both_writes_succeed (hr : txnSystem.Reachable s) (hq : s.Quiet)
    (hchains : ∀ x, s.versions x = []) (halloc : slot.idx < s.count slot.tbl slot.pid)
    (hbit : s.deletedBit slot = false) (hactive : (s.txns a).ctl = .active)
    (hzero : (s.txns a).finish = 0) (hbactive : (s.txns b).ctl = .active) :
    ∃ s', txnSystem.Reachable s' ∧ ¬ s'.WritesSerialized := by
  have hdelete := tableWrite_deleteRaw_nil ha hchain
  have hfirst := reachable_tableWrite hr hq (by simp [HeadsValid, hchains]) hactive .deleteRaw
    slot halloc
  have hvalid : (s.tableWrite a .deleteRaw slot).HeadsValid := by
    rw [hdelete]
    intro x p hp
    by_cases hx : x = slot
    · subst hx
      obtain rfl : ⟨a, 0⟩ = p := by simpa using hp
      simp
    · simp [hx, hchains] at hp
  have hsecond := reachable_tableWrite hfirst (quiet_tableWrite hq _ _ _) hvalid (t := b)
    (by simp [hdelete, hne, hbactive]) (.update []) slot (by rw [hdelete]; exact halloc)
  obtain ⟨x, htxns, hx, hreturned⟩ :=
    returned_tableWrite_tableWrite (s := s) hne ha hchain hzero hbit
  refine ⟨_, hsecond, fun h => ?_⟩
  -- neither of the two has a commit time
  have hlives := h.disjoint slot a b .deleteRaw (.update []) hne.symm
    (by rw [htxns]; simp [hdelete, hne.symm]) (by rw [htxns]; simp [hreturned])
  rcases hlives with ⟨c, hc, -⟩ | ⟨c, hc, -⟩
  · rw [htxns] at hc
    simp [hdelete, hne.symm, Txn.commitTime, hactive] at hc
  · rw [htxns] at hc
    simp [Txn.commitTime, hx, hbactive] at hc

end BothWrite

/-- A transaction that begins at `2 ^ 63` has the finish time 0: its
uncommitted versions read as committed, and an older transaction writes over
them. -/
theorem second_updater_wins : ¬ ∀ (memory : UndoMemory) (x : WithUndo Db),
    (txnHost.withUndo memory).ReachableBy (txnHost.CommitsWhole memory TSys.Always) x →
      x.state.WritesSerialized := by
  intro h
  obtain ⟨n, hn⟩ : ∃ n, n = 2 ^ 63 + 1 := ⟨_, rfl⟩
  obtain ⟨a, ha⟩ : ∃ a : Nat, a = 2 ^ 63 := ⟨_, rfl⟩
  have hzero : finishTimeOf (u64 a) = 0 := by rw [ha]; decide
  have hbase := afterBegins_eq stored_init n
  have htxn : ∀ t, t < n → (afterBegins stored n).txns t =
      ⟨.active, u64 t, finishTimeOf (u64 t), [], []⟩ := by
    intro t ht
    simp [hbase, ht]
  obtain ⟨s, hr, hs⟩ := @both_writes_succeed (afterBegins stored n) a 0 firstSlot
    (ha ▸ by decide) (by simp [htxn a (by omega)])
    (by rw [hbase]; rfl) (afterBegins_reachable stored_init n) (quiet_afterBegins stored_init n)
    (by rw [hbase]; intro x; rfl) (by rw [hbase]; exact Nat.zero_lt_one) (by rw [hbase]; rfl)
    (by simp [htxn a (by omega)]) (by simp [htxn a (by omega), hzero])
    (by simp [htxn 0 (by omega)])
  obtain ⟨calls, hr, -⟩ := txnHost.exists_reachable hr
  exact hs (h _ _ hr)

end Db

end Db7
