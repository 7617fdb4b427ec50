import Db7.Index.LeafCrabbing
import Db7.Index.NoWrap

/-!
# One live tuple

Of the tuples that a unique index stores under the same columns at most one is live at a
time, if no columns are a proper prefix of others, no `HasSpace` wraps and timestamps stay below the
bit that marks uncommitted versions.

* **latches** (`Latches`): the leaves that a call holds belong to it alone;
* **tuples** (`TidsOk`): a tuple is inserted by the transaction whose call stores it, and
  stored once;
* **unique** (`UniqueInv.unique`): when a tuple is stored, its transaction has deleted
  each of the others or begun after a delete of it was committed, and this stays so.
-/

namespace Db7

open Lib Lib.BLink Function KeyNormEncoder
open BtreeVarlenLayoutLeaf (KeyOf)
open BTreeIndex (Admissible FixedWidth prefixFree_fixedWidth)

namespace UniqueIndex

open Layout (leaf)

/-- The tuples that a transaction has inserted and that are not stored yet. -/
def unstored (s : UniqueIndex) (t : TxnId) : List Nat :=
  match s.calls t with
  | none => s.pending t
  | some c => if c.pc.waiting then c.tid :: s.pending t else s.pending t

/-- Of two stored tuples, `x` is out of the way of the transaction that inserted `y`. -/
def Superseded (s : UniqueIndex) (x y : Nat) : Prop :=
  ∃ t, s.db.InsertedBy t (s.slotOf y) ∧ s.db.Removed t (s.slotOf x)

/-- A call holds the latches of the leaves that it has been through. -/
structure Latches (s : UniqueIndex) : Prop where
  held : ∀ t c, s.calls t = some c → ∀ p ∈ c.pc.held, s.latch p = some t
  nodup : ∀ t c, s.calls t = some c → c.pc.held.Nodup

/-- The tuples and their transactions. -/
structure TidsOk (s : UniqueIndex) : Prop where
  inserted : ∀ t, ∀ tid ∈ s.unstored t, tid < 2 ^ 64 ∧ s.db.InsertedBy t (s.slotOf tid)
  nodup : ∀ t, (s.unstored t).Nodup
  absent : ∀ t, ∀ tid ∈ s.unstored t, ∀ columns, ¬ s.leaves.tree.HasKey (buildKey columns tid)
  stored : ∀ columns x, x < 2 ^ 64 → s.leaves.tree.HasKey (buildKey columns x) →
    ∃ t, s.db.InsertedBy t (s.slotOf x)

/-- The invariant of the index and the transactions. -/
structure UniqueInv (s : UniqueIndex) (low : Nat → Key) (S : Key → Prop) : Prop where
  db : txnSystem.ReachableBy (Db.HandsOutBelow signBit) s.db
  leaves : s.Leaves low S
  latches : s.Latches
  admitted : ∀ t c, s.calls t = some c → Admissible S c.columns c.tid ∧
    (s.db.txns t).ctl = .active ∧ s.db.InsertedBy t (s.slotOf c.tid)
  calls : ∀ t c, s.calls t = some c → s.PcOk low t c
  tids : s.TidsOk
  unique : ∀ columns x y, x < 2 ^ 64 → y < 2 ^ 64 → s.leaves.tree.HasKey (buildKey columns x) →
    s.leaves.tree.HasKey (buildKey columns y) → x ≠ y → s.Superseded x y ∨ s.Superseded y x

section Calls

variable {s s' : UniqueIndex} {t u : TxnId} {c : UniqueCall} {low : Nat → Key} {S : Key → Prop}

@[simp] theorem goto_calls (s : UniqueIndex) (t : TxnId) (c : UniqueCall) (pc : UniquePc) :
    (s.goto t c pc).calls = update s.calls t (some { c with pc := pc }) := rfl

/-- What a step of a call leaves as it is. -/
structure Kept (s s' : UniqueIndex) (t : TxnId) (c : UniqueCall) : Prop where
  tbl : s'.heapTblId = s.heapTblId
  db : s'.db = s.db
  pending : s'.pending = s.pending
  others : ∀ u, u ≠ t → s'.calls u = s.calls u
  own : ∀ c', s'.calls t = some c' → c'.columns = c.columns ∧ c'.tid = c.tid ∧
    (c'.pc.waiting = true → c.pc.waiting = true ∧ s'.leaves = s.leaves)

theorem CallStep.kept (h : CallStep s t c s') : Kept s s' t c := by
  have hgoto : ∀ (s₁ : UniqueIndex) (pc : UniquePc), s₁.heapTblId = s.heapTblId → s₁.db = s.db →
      s₁.pending = s.pending → s₁.calls = s.calls →
      (pc.waiting = true → c.pc.waiting = true ∧ s₁.leaves = s.leaves) →
        Kept s (s₁.goto t c pc) t c := by
    intro s₁ pc htbl hdb hpending hcalls hwaiting
    refine ⟨htbl, hdb, hpending, fun u hu => ?_, fun c' hc' => ?_⟩
    · rw [goto_calls, update_of_ne hu, hcalls]
    · rw [goto_calls, update_self] at hc'
      obtain rfl := Option.some.inj hc'
      exact ⟨rfl, rfl, hwaiting⟩
  cases h with
  | ret hpc =>
      refine ⟨rfl, rfl, rfl, fun u hu => ?_, fun c' hc' => ?_⟩
      · simp [hu]
      · simp at hc'
  | right hpc | found hpc | crab hpc | probe hpc | proceed hpc | last hpc | pass hpc =>
      exact hgoto _ _ rfl rfl rfl rfl fun _ => ⟨by rw [hpc]; rfl, rfl⟩
  | _ => exact hgoto _ _ rfl rfl rfl rfl fun h => absurd h (by simp [UniquePc.waiting])

/-- How a step of a call changes the latches. -/
theorem Latches.call (h : s.Latches) (hc : s.calls t = some c) (hs : CallStep s t c s') :
    s'.Latches := by
  have hk := hs.kept
  have hother : ∀ u c', u ≠ t → s'.calls u = some c' → s.calls u = some c' := fun u c' hu hc' => by
    rwa [hk.others u hu] at hc'
  -- the latches of the others stay, and `t` has those that its new place says
  have hmain : (∀ u, u ≠ t → ∀ p, s.latch p = some u → s'.latch p = some u) →
      (∀ c', s'.calls t = some c' → c'.pc.held.Nodup ∧ ∀ p ∈ c'.pc.held, s'.latch p = some t) →
        s'.Latches := by
    intro hkeep hown
    refine ⟨fun u c' hc' p hp => ?_, fun u c' hc' => ?_⟩ <;> by_cases hu : u = t
    · subst hu
      exact (hown c' hc').2 p hp
    · exact hkeep u hu p (h.held u c' (hother u c' hu hc') p hp)
    · subst hu
      exact (hown c' hc').1
    · exact h.nodup u c' (hother u c' hu hc')
  have hheld := h.held t c hc
  have hnodup := h.nodup t c hc
  -- a latch is taken when nobody has it
  have hlock : ∀ pid, s.latch pid = none → ∀ u p, s.latch p = some u →
      (update s.latch pid (some t)) p = some u := by
    intro pid hnone u p hp
    have hne : p ≠ pid := by
      rintro rfl
      rw [hnone] at hp
      exact absurd hp (by simp)
    rw [update_of_ne hne, hp]
  cases hs with
  | ret hpc => exact hmain (fun u _ p hp => hp) fun c' hc' => by simp at hc'
  | @found pid pg hpc hlatch _ _ =>
      refine hmain (fun u _ p hp => hlock pid hlatch u p hp) fun c' hc' => ?_
      rw [goto_calls, update_self] at hc'
      obtain rfl := Option.some.inj hc'
      refine ⟨List.nodup_singleton pid, fun p hp => ?_⟩
      obtain rfl := List.mem_singleton.mp hp
      exact update_self ..
  | @crab pid visited insertPage pg hpc hlatch _ =>
      refine hmain (fun u _ p hp => hlock pid hlatch u p hp) fun c' hc' => ?_
      rw [goto_calls, update_self] at hc'
      obtain rfl := Option.some.inj hc'
      rw [hpc] at hheld hnodup
      refine ⟨List.nodup_append.mpr ⟨hnodup, List.nodup_singleton pid, fun p hp q hq => ?_⟩,
        fun p hp => ?_⟩
      · obtain rfl := List.mem_singleton.mp hq
        rintro rfl
        have hlatched := hheld p hp
        rw [hlatch] at hlatched
        exact absurd hlatched (by simp)
      · rcases List.mem_append.mp hp with hp | hp
        · exact hlock pid hlatch t p (hheld p hp)
        · obtain rfl := List.mem_singleton.mp hp
          exact update_self ..
  | @unlock pid visited success hpc =>
      rw [hpc] at hheld hnodup
      have hpid : s.latch pid = some t := hheld pid List.mem_cons_self
      obtain ⟨hnot, hnodup⟩ := List.nodup_cons.mp hnodup
      refine hmain (fun u hu p hp => ?_) fun c' hc' => ?_
      · have hne : p ≠ pid := by
          rintro rfl
          exact hu (Option.some.inj (hp.symm.trans hpid))
        show update s.latch pid none p = _
        rw [update_of_ne hne, hp]
      · rw [goto_calls, update_self] at hc'
        obtain rfl := Option.some.inj hc'
        refine ⟨hnodup, fun p hp => ?_⟩
        have hne : p ≠ pid := by
          rintro rfl
          exact hnot hp
        show update s.latch pid none p = _
        rw [update_of_ne hne]
        exact hheld p (List.mem_cons_of_mem _ hp)
  | right hpc | probe hpc | proceed hpc | last hpc | conflict hpc | pass hpc
  | insert hpc | split hpc =>
      refine hmain (fun u _ p hp => hp) fun c' hc' => ?_
      rw [goto_calls, update_self] at hc'
      obtain rfl := Option.some.inj hc'
      rw [hpc] at hheld hnodup
      exact ⟨hnodup, hheld⟩

end Calls

/-! ## The key goes in -/

/-- The leaves after `key` went into leaf `page`, which may have been split. -/
structure Grown (s : UniqueIndex) (leaves : BTreeIndex) (low low' : Nat → Key)
    (S : Key → Prop) (page : Nat) (key : Key) : Prop where
  shape : leaves.Shape low' S
  level : ∀ p pg, leaves.pages p = some pg → pg.level = 0
  grows : LinkTree.Grows s.leaves.tree leaves.tree low low'
  keys : ∀ k, leaves.tree.HasKey k ↔ s.leaves.tree.HasKey k ∨ k = key
  pages : ∀ p, p ≠ page → s.leaves.pages p ≠ none → leaves.pages p = s.leaves.pages p
  new : ∀ q m, leaves.tree.nodes q = some m → s.leaves.tree.nodes q = none →
    ∃ n, s.leaves.tree.nodes page = some n ∧ n.level = m.level ∧ low page ≤ low' q ∧
      HighLe m.high n.high

section Grown

variable {s : UniqueIndex} {low : Nat → Key} {S : Key → Prop} {page : Nat}
  {pg : BtreePage} {key : Key}
  (hl : s.Leaves low S) (hkey : KeyOf S key) (hp : s.leaves.pages page = some pg)
    (hlow : low page ≤ key)
  (hsplit : ¬ BtreeVarlenLayoutLeaf.hasSplit pg key = true) (hfresh : ¬ s.leaves.tree.HasKey key)

include hl hkey hp hlow hsplit hfresh

theorem grown_insert {pg' : BtreePage} (hins : BtreeVarlenLayoutLeaf.insert pg key = .ok pg') :
    Grown s (s.leaves.setPage page pg') low low S page key := by
  have hlevel := hl.level page pg hp
  have hlay := hl.layout hp
  have hne : ∀ e ∈ pg.node.entries, e.1 ≠ key := fun e he heq =>
    hfresh ⟨page, _, BTreeIndex.tree_nodes hp, hlevel, e, he, heq⟩
  obtain ⟨-, hins⟩ :=
    BtreeVarlenLayoutLeaf.insert_ok (hlay ▸ hl.shape.page page pg hp) (hl.sorted hp) hins
  rw [← hlay] at hins
  obtain ⟨hshape, hgrows, hkeys⟩ :=
    hl.shape.insert hp hins hlow (BTreeIndex.covers_node hlay hsplit) hkey
    (fun _ => hne) fun h => absurd hlevel h.ne'
  have hother : ∀ p, p ≠ page → (s.leaves.setPage page pg').pages p = s.leaves.pages p :=
    fun p hne => by
    simp [BTreeIndex.setPage, hne]
  refine ⟨hshape, fun p q hq => ?_, hgrows, fun k => ?_, fun p hne _ => hother p hne,
    fun q m hm hnone => ?_⟩
  · by_cases hpp : p = page
    · subst hpp
      obtain rfl : pg' = q := by simpa [BTreeIndex.setPage] using hq
      exact hins.level.trans hlevel
    · exact hl.level p q ((hother p hpp).symm.trans hq)
  · rw [hkeys]
    simp [hlevel]
  · -- no node is new
    obtain ⟨pg₁, hpg₁, -⟩ := BTreeIndex.pages_of_tree hm
    have hne : q ≠ page := by
      rintro rfl
      rw [BTreeIndex.tree_nodes hp] at hnone
      exact absurd hnone (by simp)
    rw [hother q hne] at hpg₁
    rw [BTreeIndex.tree_nodes hpg₁] at hnone
    exact absurd hnone (by simp)

theorem grown_split {l r : BtreePage} {sentinel : Key} (hnext : s.leaves.nextPid < reserveLimit)
    (hs : BtreeVarlenLayoutLeaf.split pg (.initHeader 0 s.leaves.nextPid) s.leaves.nextPid key =
      .ok (l, r, sentinel)) :
    Grown s (s.leaves.splitPages page l r) low
      (update low s.leaves.nextPid sentinel) S page key := by
  have hlevel := hl.level page pg hp
  have hlay := hl.layout hp
  have hne : ∀ e ∈ pg.node.entries, e.1 ≠ key := fun e he heq =>
    hfresh ⟨page, _, BTreeIndex.tree_nodes hp, hlevel, e, he, heq⟩
  have hsp := Layout.split_ok (hlay ▸ hl.shape.page page pg hp) (hl.sorted hp)
    (BTreeIndex.length_lt_of_keyOf hkey) (by decide) hs
  rw [← hlay] at hsp
  have hn := hl.shape.nodeInv hp
  have hv := hsp.view hn.within hn.leftmost hlow (BTreeIndex.covers_node hlay hsplit) fun _ => hne
  have hv' : Layout.SplitView pg.layout pg l r s.leaves.nextPid sentinel (low page) key pg.node.high
      pg.level 0 := by
    rw [hlevel]
    exact hv
  obtain ⟨hshape, hgrows, hkeys, hlt, -⟩ :=
    hl.shape.split hp hv' hnext hkey fun h => absurd hlevel h.ne'
  obtain ⟨hpl, hpr, hother⟩ := BTreeIndex.splitPages_pages (l := l) (r := r) hp hl.shape
  have hused : ∀ p, s.leaves.pages p ≠ none → p ≠ s.leaves.nextPid := by
    rintro p hused rfl
    exact hused hl.shape.fresh
  refine ⟨hshape, fun p q hq => ?_, hgrows, fun k => ?_,
    fun p hne hold => hother p hne (hused p hold),
    fun q m hm hnone => ?_⟩
  · by_cases hpp : p = page
    · subst hpp
      obtain rfl := Option.some.inj (hpl.symm.trans hq)
      exact hv'.levelLeft.trans hlevel
    · by_cases hpn : p = s.leaves.nextPid
      · subst hpn
        obtain rfl := Option.some.inj (hpr.symm.trans hq)
        exact hv'.levelRight.trans hlevel
      · exact hl.level p q ((hother p hpp hpn).symm.trans hq)
  · rw [hkeys]
    simp [hlevel]
  · -- the right half is new
    obtain ⟨pg₁, hpg₁, rfl⟩ := BTreeIndex.pages_of_tree hm
    have hqp : q ≠ page := by
      rintro rfl
      rw [BTreeIndex.tree_nodes hp] at hnone
      exact absurd hnone (by simp)
    have hqn : q = s.leaves.nextPid := by
      by_contra hqn
      rw [hother q hqp hqn] at hpg₁
      rw [BTreeIndex.tree_nodes hpg₁] at hnone
      exact absurd hnone (by simp)
    subst hqn
    obtain rfl := Option.some.inj (hpr.symm.trans hpg₁)
    refine ⟨pg.node, BTreeIndex.tree_nodes hp, hv'.levelRight.symm, ?_, ?_⟩
    · rw [update_self]
      exact hlt.le
    · have hhigh : r.node.high = pg.node.high := by
        show r.layout.high r = pg.layout.high pg
        rw [BTreeIndex.layout_of_level hv'.levelRight, hv'.highRight]
      rw [hhigh]
      exact HighLe.refl _

end Grown

/-! ## A step of the table -/

theorem slotOf_value (s : UniqueIndex) {pid idx : Nat} (hpid : pid < 2 ^ 32) (hidx : idx < 2 ^ 32) :
    s.slotOf (TupleId.value ⟨pid, idx⟩) = ⟨s.heapTblId, pid, idx⟩ := by
  simp only [slotOf, TupleId.ofValue, TupleId.value, TupleId.slot, Slot.mk.injEq, true_and]
  omega

/-- The state after a step of a transaction on the table. -/
def onTable (s : UniqueIndex) (a : Action) (db : Db) : UniqueIndex :=
  { s with db := db, pending := s.handOut a }

section Table

variable {s : UniqueIndex} {a : Action} {db : Db} {low : Nat → Key} {S : Key → Prop}

/-- The new tuple goes to the transaction that inserts it. -/
theorem unstored_onTable (hfree : s.calls a.txn = none) (db : Db) (u : TxnId) :
    (s.onTable a db).unstored u = s.unstored u ∨
      ∃ pid chunk, a = .insert u s.heapTblId pid chunk ∧
        (s.onTable a db).unstored u = TupleId.value ⟨pid, s.db.count s.heapTblId pid⟩ ::
          s.unstored u := by
  cases a with
  | insert t tbl pid chunk =>
      by_cases htbl : tbl = s.heapTblId
      · subst htbl
        by_cases hu : u = t
        · subst hu
          have hcalls : s.calls u = none := hfree
          exact .inr ⟨pid, chunk, rfl, by simp [unstored, onTable, handOut, hcalls]⟩
        · exact .inl (by simp [unstored, onTable, handOut, hu])
      · exact .inl (by simp [unstored, onTable, handOut, htbl])
  | _ => exact .inl rfl

theorem TidsOk.onTable (hcommit : Db.CommitInv signBit s.db) (hchain : Db.ChainInv s.db)
    (htuple : Db.TupleInv s.db) (h : s.TidsOk) (hfree : s.calls a.txn = none)
    (hfits : s.fits a = true) (hs : Db.Stepped s.db a db) : (s.onTable a db).TidsOk := by
  have hkeep : ∀ t x, s.db.InsertedBy t x → db.InsertedBy t x :=
    fun t x => .step hcommit hchain htuple hs
  -- the new tuple is at a slot that was not allocated
  have hnew : ∀ u pid chunk, a = .insert u s.heapTblId pid chunk →
      let tid := TupleId.value ⟨pid, s.db.count s.heapTblId pid⟩
      tid < 2 ^ 64 ∧ db.InsertedBy u (s.slotOf tid) ∧ ∀ t, ¬ s.db.InsertedBy t (s.slotOf tid) := by
    rintro u pid chunk rfl
    simp only [fits, Bool.and_eq_true, decide_eq_true_eq] at hfits
    obtain ⟨hpid, hcount⟩ := hfits
    have hslot := s.slotOf_value hpid hcount
    refine ⟨?_, ?_, fun t hins => ?_⟩
    · simp only [TupleId.value]
      omega
    · rw [hslot]
      cases hs with
      | insert _ _ => exact Db.insertedBy_insertTuple ..
    · rw [hslot] at hins
      exact lt_irrefl _ (hins.allocated htuple)
  refine ⟨fun u tid htid => ?_, fun u => ?_, fun u tid htid columns hkey => ?_,
    fun columns x hx hkey => ?_⟩
  · rcases unstored_onTable hfree db u with heq | ⟨pid, chunk, ha, heq⟩ <;> rw [heq] at htid
    · exact (h.inserted u tid htid).imp_right (hkeep u _)
    · rcases List.mem_cons.mp htid with rfl | htid
      · obtain ⟨hlt, hins, -⟩ := hnew u pid chunk ha
        exact ⟨hlt, hins⟩
      · exact (h.inserted u tid htid).imp_right (hkeep u _)
  · rcases unstored_onTable hfree db u with heq | ⟨pid, chunk, ha, heq⟩ <;> rw [heq]
    · exact h.nodup u
    · exact List.nodup_cons.mpr ⟨fun hmem => (hnew u pid chunk ha).2.2 u (h.inserted u _ hmem).2,
        h.nodup u⟩
  · have hkey : s.leaves.tree.HasKey (buildKey columns tid) := hkey
    rcases unstored_onTable hfree db u with heq | ⟨pid, chunk, ha, heq⟩ <;> rw [heq] at htid
    · exact h.absent u tid htid columns hkey
    · rcases List.mem_cons.mp htid with rfl | htid
      · obtain ⟨hlt, -, hnone⟩ := hnew u pid chunk ha
        obtain ⟨t, hins⟩ := h.stored columns _ hlt hkey
        exact hnone t hins
      · exact h.absent u tid htid columns hkey
  · obtain ⟨t, hins⟩ := h.stored columns x hx hkey
    exact ⟨t, hkeep t _ hins⟩

theorem UniqueInv.onTable (h : s.UniqueInv low S) (hfree : s.calls a.txn = none)
    (hfits : s.fits a = true)
    (hc : Db.HandsOutBelow signBit s.db a) (hstep : s.db.step a = some db) :
    (s.onTable a db).UniqueInv low S := by
  have hcommit := Db.commitInv_reachable (by decide) h.db
  have hchain := Db.chainInv_reachable h.db
  have htuple := Db.tupleInv_reachable h.db
  have hs := Db.stepped_of_step hstep
  have hother : ∀ t c, s.calls t = some c → t ≠ a.txn := by
    rintro t c hcall rfl
    rw [hfree] at hcall
    exact absurd hcall (by simp)
  refine ⟨h.db.steps (.single hc hstep), ⟨h.leaves.shape, h.leaves.level⟩,
    ⟨h.latches.held, h.latches.nodup⟩,
    fun t c hcall => ?_, fun t c hcall => ?_, h.tids.onTable hcommit hchain htuple hfree hfits hs,
    fun columns x y hx hy hkx hky hne => ?_⟩
  · obtain ⟨hadm, hctl, hins⟩ := h.admitted t c hcall
    refine ⟨hadm, ?_, hins.step hcommit hchain htuple hs⟩
    show (db.txns t).ctl = .active
    rw [hs.txns_of_ne (hother t c hcall), hctl]
  · have hpos := (h.admitted t c hcall).2.2.pos hchain
    have hframe : Undisturbed s (s.onTable a db) low low t c.pc.held :=
      .of_leaves rfl rfl (fun x hx => hx.step hcommit hchain htuple hs hpos)
        fun x p hp => hs.mem_versions htuple hp
    exact (h.calls t c hcall).frame hframe
  · have hkeep : ∀ {x y}, s.Superseded x y → (s.onTable a db).Superseded x y := by
      rintro x y ⟨t, hins, hrem⟩
      exact ⟨t, hins.step hcommit hchain htuple hs,
        hrem.step hcommit hchain htuple hs (hins.pos hchain)⟩
    exact (h.unique columns x y hx hy hkx hky hne).imp hkeep hkeep

end Table

/-! ## A call begins -/

section Invoke

variable {s : UniqueIndex} {low : Nat → Key} {S : Key → Prop} {t : TxnId} {columns : Key}
  {tid start : Nat}

/-- The walk to the right from a leaf stays at or left of the leaf that covers the key. -/
theorem at_of_mem_leavesUpTo (hl : s.Leaves low S) {key : Key} {p : Nat} {fuel : Nat} {pid : Nat}
    (hat : s.leaves.tree.At low pid 0 key) (hp : p ∈ leavesUpTo s.leaves key fuel pid) :
    s.leaves.tree.At low p 0 key := by
  induction fuel generalizing pid with
  | zero => simp [leavesUpTo] at hp
  | succ fuel ih =>
      obtain ⟨pg, hpg, hlevel, -⟩ := BTreeIndex.page_of_at hat
      simp only [leavesUpTo, hpg] at hp
      split at hp <;> rename_i hsplit
      · rcases List.mem_cons.mp hp with rfl | hp
        · exact hat
        · obtain ⟨hright, -⟩ := hl.shape.at_right hpg (hl.layout hpg) hsplit
          exact ih (hlevel ▸ hright) hp
      · obtain rfl := List.mem_singleton.mp hp
        exact hat

/-- It comes through every leaf between the two. -/
theorem mem_leavesUpTo_of_at (hl : s.Leaves low S) {key : Key} {p : Nat}
    (hp : s.leaves.tree.At low p 0 key)
    {fuel : Nat} {pid : Nat} (hat : s.leaves.tree.At low pid 0 key) (hle : low pid ≤ low p)
    (hfuel : s.leaves.tree.toTheRight low s.leaves.nextPid pid < fuel) :
    p ∈ leavesUpTo s.leaves key fuel pid := by
  induction fuel generalizing pid with
  | zero => omega
  | succ fuel ih =>
      obtain ⟨pg, hpg, hlevel, -⟩ := BTreeIndex.page_of_at hat
      obtain ⟨m, hm, hlevelm, hlowm⟩ := hp
      have hnode := BTreeIndex.tree_nodes hpg
      have hsame : pg.node.level = m.level := hlevel.trans hlevelm.symm
      simp only [leavesUpTo, hpg]
      rcases hle.lt_or_eq with hlt | heq
      · -- `p` lies right of this leaf, so the walk goes on
        obtain ⟨b, hb, hbp⟩ := hl.shape.inv.disjoint pid p _ m hnode hm hsame hlt
        have hsplit : BtreeVarlenLayoutLeaf.hasSplit pg key = true :=
          Layout.hasSplit_iff.mpr ⟨b, hl.high hpg ▸ hb, hbp.trans hlowm⟩
        obtain ⟨hright, hlow, -⟩ := hl.shape.inv.at_right hnode hb (hbp.trans hlowm)
        rw [if_pos hsplit]
        refine List.mem_cons_of_mem _ (ih (hlevel ▸ hright) (hlow.le.trans hbp) ?_)
        have hcloser := hl.shape.toTheRight_lt hpg hb
        show s.leaves.tree.toTheRight low s.leaves.nextPid pg.rlink < fuel
        omega
      · obtain rfl := hl.shape.inv.inj pid p _ m hnode hm hsame heq
        split <;> exact List.mem_cons_self

/-- A descent may end at every leaf that is at or left of the one that covers the key. -/
theorem mem_leavesUpTo (hl : s.Leaves low S) {key : Key} {p : Nat} :
    p ∈ leavesUpTo s.leaves key s.leaves.nextPid s.leaves.rootId ↔
      s.leaves.tree.At low p 0 key := by
  obtain ⟨n, hn, hbot, -⟩ := hl.shape.inv.root
  obtain ⟨pg, hpg, rfl⟩ := BTreeIndex.pages_of_tree hn
  have hroot : s.leaves.tree.At low s.leaves.rootId 0 key :=
    hl.level _ pg hpg ▸ hl.shape.inv.at_root key hn
  refine ⟨at_of_mem_leavesUpTo hl hroot, fun hp => mem_leavesUpTo_of_at hl hp hroot ?_ ?_⟩
  · show low s.leaves.tree.root ≤ _
    rw [hbot]
    exact bot_le
  · exact LinkTree.toTheRight_lt_bound (hl.shape.pid _ pg hpg).2

/-- The state after a transaction has called `InsertUnique`. -/
def invoked (s : UniqueIndex) (t : TxnId) (columns : Key) (tid start : Nat) : UniqueIndex :=
  { s with
    pending := update s.pending t ((s.pending t).erase tid)
    calls := update s.calls t (some ⟨columns, tid, .goRight start⟩) }

theorem unstored_invoked (hfree : s.calls t = none) (hmem : tid ∈ s.pending t) (u : TxnId) :
    ((s.invoked t columns tid start).unstored u).Perm (s.unstored u) := by
  by_cases hu : u = t
  · subst hu
    have hold : s.unstored u = s.pending u := by simp [unstored, hfree]
    have hnew : (s.invoked u columns tid start).unstored u = tid :: (s.pending u).erase tid := by
      simp [unstored, invoked, UniquePc.waiting]
    rw [hold, hnew]
    exact (List.perm_cons_erase hmem).symm
  · have heq : (s.invoked t columns tid start).unstored u = s.unstored u := by
      simp [unstored, invoked, hu]
    rw [heq]

theorem UniqueInv.invoked (h : s.UniqueInv low S) (hS : S columns)
    (hctl : (s.db.txns t).ctl = .active) (hfree : s.calls t = none) (hmem : tid ∈ s.pending t)
    (hlen : columns.length + 8 < db7MaxRowSize)
    (hat : s.leaves.tree.At low start 0 (buildKey columns 0)) :
    (s.invoked t columns tid start).UniqueInv low S := by
  have hperm : ∀ u, ((s.invoked t columns tid start).unstored u).Perm (s.unstored u) := fun u =>
    unstored_invoked hfree hmem u
  have hcases : ∀ u c, (s.invoked t columns tid start).calls u = some c →
      u = t ∧ c = ⟨columns, tid, .goRight start⟩ ∨ s.calls u = some c := by
    intro u c hcall
    by_cases hu : u = t
    · subst hu
      exact .inl ⟨rfl, by simpa [UniqueIndex.invoked] using hcall.symm⟩
    · exact .inr (by simpa [UniqueIndex.invoked, hu] using hcall)
  refine ⟨h.db, ⟨h.leaves.shape, h.leaves.level⟩, ⟨fun u c hcall => ?_, fun u c hcall => ?_⟩,
    fun u c hcall => ?_, fun u c hcall => ?_,
      ⟨fun u x hx => h.tids.inserted u x ((hperm u).mem_iff.mp hx),
      fun u => (hperm u).nodup_iff.mpr (h.tids.nodup u),
        fun u x hx => h.tids.absent u x ((hperm u).mem_iff.mp hx),
      h.tids.stored⟩, h.unique⟩ <;>
    obtain ⟨rfl, rfl⟩ | hcall := hcases u c hcall
  · simp [UniquePc.held]
  · exact h.latches.held u c hcall
  · exact List.nodup_nil
  · exact h.latches.nodup u c hcall
  · have hunstored : tid ∈ s.unstored u := by simpa [unstored, hfree] using hmem
    obtain ⟨htid, hins⟩ := h.tids.inserted u tid hunstored
    exact ⟨⟨hS, htid, hlen⟩, hctl, hins⟩
  · exact h.admitted u c hcall
  · exact hat
  · have hframe : Undisturbed s (s.invoked t columns tid start) low low u c.pc.held :=
      .of_leaves rfl rfl (fun _ hx => hx) fun _ _ hp => hp
    exact (h.calls u c hcall).frame hframe

end Invoke

/-! ## A step of a call -/

section Call

variable {s s' : UniqueIndex} {low low' : Nat → Key} {S : Key → Prop} {t u : TxnId}
  {c c' : UniqueCall} {page : Nat} {visited held : List Nat} {key : Key}

theorem Kept.slotOf (h : Kept s s' t c) (tid : Nat) : s'.slotOf tid = s.slotOf tid := by
  rw [UniqueIndex.slotOf, UniqueIndex.slotOf, h.tbl]

theorem Kept.superseded (h : Kept s s' t c) {x y : Nat} : s'.Superseded x y ↔ s.Superseded x y := by
  rw [Superseded, Superseded, h.db, h.slotOf, h.slotOf]

/-- A tuple that has been stored, or never will be, is gone. -/
theorem Kept.unstored (h : Kept s s' t c) (hc : s.calls t = some c) (u : TxnId) :
    (s'.unstored u).Sublist (s.unstored u) := by
  by_cases hu : u = t
  · subst hu
    have hpending : (s.pending u).Sublist (s.unstored u) := by
      simp only [UniqueIndex.unstored, hc]
      split
      · exact List.sublist_cons_self ..
      · exact List.Sublist.refl _
    cases hc' : s'.calls u with
    | none =>
        have heq :
            s'.unstored u = s.pending u := by simp only [UniqueIndex.unstored, hc', h.pending]
        rwa [heq]
    | some c' =>
        obtain ⟨-, htid, hwaiting⟩ := h.own c' hc'
        by_cases hw : c'.pc.waiting = true
        · have heq : s'.unstored u = s.unstored u := by
            simp only [UniqueIndex.unstored, hc', hc, hw, (hwaiting hw).1, htid, h.pending]
          rw [heq]
        · have heq : s'.unstored u = s.pending u := by
            simp only [UniqueIndex.unstored, hc', if_neg hw, h.pending]
          rwa [heq]
  · have heq : s'.unstored u = s.unstored u := by
      simp only [UniqueIndex.unstored, h.others u hu, h.pending]
    rw [heq]

theorem Kept.admitted (h : Kept s s' t c) (hi : s.UniqueInv low S)
    (hc : s.calls t = some c) (u : TxnId)
    (c' : UniqueCall) (hc' : s'.calls u = some c') : Admissible S c'.columns c'.tid ∧
      (s'.db.txns u).ctl = .active ∧ s'.db.InsertedBy u (s'.slotOf c'.tid) := by
  rw [h.db, h.slotOf]
  by_cases hu : u = t
  · subst hu
    obtain ⟨hcolumns, htid, -⟩ := h.own c' hc'
    rw [hcolumns, htid]
    exact hi.admitted u c hc
  · rw [h.others u hu] at hc'
    exact hi.admitted u c' hc'

/-- A step of a call that has not come to its insert leaves the other calls alone. -/
theorem Kept.undisturbed (h : Kept s s' t c) (hleaves : s'.leaves = s.leaves)
    (low : Nat → Key) (u : TxnId) (held : List Nat) : Undisturbed s s' low low u held :=
  .of_leaves h.tbl hleaves (fun x hx => by rwa [h.db]) fun x p hp => by rwa [h.db]

/-- So does the insert into a leaf that they do not hold. -/
theorem Grown.undisturbed (hg : Grown s s'.leaves low low' S page key) (h : Kept s s' t c)
    (hpage : page ∉ held) (hheld : ∀ p ∈ held, s.leaves.pages p ≠ none) :
    Undisturbed s s' low low' u held where
  tbl := h.tbl
  grows := hg.grows
  pages p hp := by
    refine hg.pages p ?_ (hheld p hp)
    rintro rfl
    exact hpage hp
  new q m hm hnone := by
    obtain ⟨n, hn⟩ := hg.new q m hm hnone
    exact ⟨page, n, hpage, hn⟩
  removed x hx := by rwa [h.db]
  versions x p hp := by rwa [h.db]

/-- A step before the insert. -/
theorem UniqueInv.sweep (h : s.UniqueInv low S) (hc : s.calls t = some c) (hs : CallStep s t c s')
    (hleaves : s'.leaves = s.leaves) (hown : ∀ c', s'.calls t = some c' → s'.PcOk low t c') :
    s'.UniqueInv low S := by
  have hk := hs.kept
  have hsub := hk.unstored hc
  refine ⟨hk.db ▸ h.db, ⟨hleaves ▸ h.leaves.shape, hleaves ▸ h.leaves.level⟩, h.latches.call hc hs,
    hk.admitted h hc, fun u c' hc' => ?_,
      ⟨fun u x hx => ?_, fun u => (h.tids.nodup u).sublist (hsub u),
      fun u x hx => ?_, ?_⟩, ?_⟩
  · by_cases hu : u = t
    · subst hu
      exact hown c' hc'
    · rw [hk.others u hu] at hc'
      exact (h.calls u c' hc').frame (hk.undisturbed hleaves low u _)
  · rw [hk.db, hk.slotOf]
    exact h.tids.inserted u x ((hsub u).subset hx)
  · rw [hleaves]
    exact h.tids.absent u x ((hsub u).subset hx)
  · simp only [hleaves, hk.db, hk.slotOf]
    exact h.tids.stored
  · simp only [hleaves, hk.superseded]
    exact h.unique

/-- The insert. Every other tuple under the columns is out of the way of the new one. -/
theorem UniqueInv.grown (h : s.UniqueInv low S) (hc : s.calls t = some c) (hs : CallStep s t c s')
    (hpc : c.pc = .insert page visited)
    (hcall : s'.calls t = some { c with pc := .free visited true })
    (hg : Grown s s'.leaves low low' S page c.key) : s'.UniqueInv low' S := by
  have hk := hs.kept
  have hsub := hk.unstored hc
  obtain ⟨⟨-, htid, -⟩, -, hins⟩ := h.admitted t c hc
  have hok := h.calls t c hc
  -- the key is that of a tuple which is not stored twice
  have hnew : ∀ {columns x}, x < 2 ^ 64 → buildKey columns x = c.key →
      columns = c.columns ∧ x = c.tid :=
    fun hx heq => (buildKey_inj hx htid).mp heq
  have hgone : ∀ u, c.tid ∉ s'.unstored u := by
    intro u hmem
    obtain rfl : u = t := by
      have hinsu := (h.tids.inserted u c.tid ((hsub u).subset hmem)).2
      exact hinsu.owner (Db.tupleInv_reachable h.db) hins
    have hold : s.unstored u = c.tid :: s.pending u := by
      simp [UniqueIndex.unstored, hc, hpc, UniquePc.waiting]
    have hnow : s'.unstored u = s.pending u := by
      simp [UniqueIndex.unstored, hcall, UniquePc.waiting, hk.pending]
    have hnodup := h.tids.nodup u
    rw [hold, List.nodup_cons] at hnodup
    exact hnodup.1 (hnow ▸ hmem)
  have hpage : page ∈ c.pc.held := by
    rw [hpc]
    simp only [PcOk, hpc] at hok
    exact hok.1
  refine ⟨hk.db ▸ h.db, ⟨hg.shape, hg.level⟩, h.latches.call hc hs, hk.admitted h hc,
    fun u c' hc' => ?_,
    ⟨fun u x hx => ?_, fun u => (h.tids.nodup u).sublist (hsub u), fun u x hx columns hkey => ?_,
      fun columns x hx hkey => ?_⟩, fun columns x y hx hy hkx hky hne => ?_⟩
  · by_cases hu : u = t
    · subst hu
      obtain rfl := Option.some.inj (hcall.symm.trans hc')
      trivial
    · rw [hk.others u hu] at hc'
      by_cases hwaiting : c'.pc.waiting = true
      · -- the leaf is latched by `t`
        have hother : page ∉ c'.pc.held := by
          intro hheld
          have hlatch := h.latches.held u c' hc' page hheld
          rw [h.latches.held t c hc page hpage] at hlatch
          exact hu (Option.some.inj hlatch).symm
        exact (h.calls u c' hc').frame
          (hg.undisturbed hk hother fun p hp => (h.calls u c' hc').held_page hwaiting hp)
      · cases hpc' : c'.pc with
        | free _ _ => simp [PcOk, hpc']
        | _ => simp [hpc', UniquePc.waiting] at hwaiting
  · rw [hk.db, hk.slotOf]
    exact h.tids.inserted u x ((hsub u).subset hx)
  · have hold := (hsub u).subset hx
    rcases (hg.keys _).mp hkey with hkey | heq
    · exact h.tids.absent u x hold columns hkey
    · obtain ⟨-, rfl⟩ := hnew (h.tids.inserted u x hold).1 heq
      exact hgone u hx
  · rw [hk.db, hk.slotOf]
    rcases (hg.keys _).mp hkey with hkey | heq
    · exact h.tids.stored columns x hx hkey
    · obtain ⟨-, rfl⟩ := hnew hx heq
      exact ⟨t, hins⟩
  · rw [hk.superseded, hk.superseded]
    rcases (hg.keys _).mp hkx with hkx | heqx <;> rcases (hg.keys _).mp hky with hky | heqy
    · exact h.unique columns x y hx hy hkx hky hne
    · obtain ⟨rfl, rfl⟩ := hnew hy heqy
      exact .inl ⟨t, hins, hok.removed h.leaves hpc hx hkx⟩
    · obtain ⟨rfl, rfl⟩ := hnew hx heqx
      exact .inr ⟨t, hins, hok.removed h.leaves hpc hy hky⟩
    · exact absurd ((hnew hx heqx).2.trans (hnew hy heqy).2.symm) hne

theorem UniqueInv.call (h : s.UniqueInv low S) (hS : PrefixFree S) (hc : s.calls t = some c)
    (hs : CallStep s t c s') : ∃ low', s'.UniqueInv low' S := by
  obtain ⟨hadm, hctl, -⟩ := h.admitted t c hc
  have hok := h.calls t c hc
  have hl := h.leaves
  -- what a step before the insert has to show
  have hgoto : ∀ pc, s'.leaves = s.leaves → s'.calls t = some { c with pc := pc } →
      s.PcOk low t { c with pc := pc } → ∃ low', s'.UniqueInv low' S := by
    intro pc hleaves hcall hown
    refine ⟨low, h.sweep hc hs hleaves fun c' hc' => ?_⟩
    obtain rfl := Option.some.inj (hcall.symm.trans hc')
    exact hown.frame (hs.kept.undisturbed hleaves low t _)
  have hself : ∀ (s₁ : UniqueIndex) (pc : UniquePc),
      (s₁.goto t c pc).calls t = some { c with pc := pc } :=
    fun s₁ pc => by simp
  have hgrown : ∀ {page visited}, c.pc = .insert page visited → ∃ pg,
      s.leaves.pages page = some pg ∧
      low page ≤ c.key ∧ ¬ BtreeVarlenLayoutLeaf.hasSplit pg c.key = true := by
    intro page visited hpc
    simp only [PcOk, hpc] at hok
    exact hok.2.1
  have hkey : KeyOf S c.key := ⟨c.columns, c.tid, hadm.1, hadm.2.1, hadm.2.2, rfl⟩
  have hfresh : ∀ {page visited}, c.pc = .insert page visited → ¬ s.leaves.tree.HasKey c.key := by
    intro page visited hpc
    exact h.tids.absent t c.tid (by simp [unstored, hc, hpc, UniquePc.waiting]) c.columns
  cases hs with
  | right hpc hp hsplit => exact hgoto _ rfl (hself _ _) (pcOk_right hl hp hsplit)
  | @found pid pg hpc _ hp hsplit =>
      have hat : s.leaves.tree.At low pid 0 c.descentKey := by simpa only [PcOk, hpc] using hok
      exact hgoto _ rfl (hself _ _) (pcOk_found hl hS hadm hat hp hsplit)
  | crab hpc _ hp => exact hgoto _ rfl (hself _ _) (pcOk_crab hl hpc hok hp)
  | probe hpc hp _ _ => exact hgoto _ rfl (hself _ _) (pcOk_probe hpc hok hp)
  | proceed hpc hp hstop hproceed =>
      exact hgoto _ rfl (hself _ _) (pcOk_proceed hl hS hadm hpc hok hp hstop hproceed)
  | last hpc hp hstop hlast hpage =>
      exact hgoto _ rfl (hself _ _) (pcOk_last hl hS hadm hpc hok hp hstop hlast hpage)
  | pass hpc hpass =>
      have hcommit := Db.commitInv_reachable (by decide) h.db
      exact hgoto _ rfl (hself _ _)
        (pcOk_pass hcommit (Db.chainInv_reachable h.db) (by simp [hctl]) hpc hok hpass)
  | conflict _ _ => exact hgoto _ rfl (hself _ _) trivial
  | unlock _ => exact hgoto _ rfl (hself _ _) trivial
  | ret hpc =>
      exact ⟨low, h.sweep hc (.ret hpc) rfl fun c' hc' => absurd hc' (by simp)⟩
  | insert hpc hp hins =>
      obtain ⟨pg, hp', hlow, hsplit⟩ := hgrown hpc
      obtain rfl := Option.some.inj (hp.symm.trans hp')
      exact ⟨_, h.grown hc (.insert hpc hp hins) hpc (hself _ _)
        (grown_insert hl hkey hp hlow hsplit (hfresh hpc) hins)⟩
  | split hpc hp hnext hsp =>
      obtain ⟨pg, hp', hlow, hsplit⟩ := hgrown hpc
      obtain rfl := Option.some.inj (hp.symm.trans hp')
      exact ⟨_, h.grown hc (.split hpc hp hnext hsp) hpc (hself _ _)
        (grown_split hl hkey hp hlow hsplit (hfresh hpc) hnext hsp)⟩

end Call

/-! ## At most one live tuple -/

/-- The tuple is stored in the index under the columns. -/
def Stored (s : UniqueIndex) (columns : Key) (tid : Nat) : Prop :=
  tid < 2 ^ 64 ∧ ∃ pid, ∃ pg ∈ s.leaves.pages pid, ∃ o ∈ pg.slots,
    leaf.slotKey pg o = buildKey columns tid

/-- The transaction is not committed, and has a tuple under the columns that nobody has
deleted. -/
def Owns (s : UniqueIndex) (t : TxnId) (columns : Key) : Prop :=
  (∀ c, (s.db.txns t).ctl ≠ .committed c) ∧ ∃ tid, s.Stored columns tid ∧
    s.db.InsertedBy t (s.slotOf tid) ∧
    ∀ p ∈ s.db.versions (s.slotOf tid), s.db.kind p ≠ some .delete

/-- What the index says of the tuples under the columns. -/
structure Unique (s : UniqueIndex) (columns : Key) : Prop where
  live : ∀ stamp x y, s.Stored columns x → s.Stored columns y → s.db.LiveAt stamp (s.slotOf x) →
    s.db.LiveAt stamp (s.slotOf y) → x = y
  owner : ∀ t u, s.Owns t columns → s.Owns u columns → t = u

/-- Timestamps are checked out below `bound`, and the columns of a call are in `S`. -/
def Regular (bound : Nat) (S : Key → Prop) (s : UniqueIndex) : UniqueAction → Prop
  | .table a => Db.HandsOutBelow bound s.db a
  | .insertUnique _ columns _ _ => S columns
  | .run _ => True

instance (bound : Nat) (S : Key → Prop) [DecidablePred S] (s : UniqueIndex) :
    (a : UniqueAction) → Decidable (Regular bound S s a)
  | .table a => inferInstanceAs (Decidable (Db.HandsOutBelow bound s.db a))
  | .insertUnique _ columns _ _ => inferInstanceAs (Decidable (S columns))
  | .run _ => inferInstanceAs (Decidable True)

/-- The section that inserts computes no offset that wraps. -/
def NoWrap (s : UniqueIndex) : UniqueAction → Prop
  | .run t =>
      match s.calls t with
      | some ⟨columns, tid, .insert page _⟩ =>
          ∀ pg ∈ s.leaves.pages page,
            leaf.SectionNoWrap pg (buildKey columns tid) 0 s.leaves.nextPid
      | _ => True
  | _ => True

instance (s : UniqueIndex) (a : UniqueAction) : Decidable (s.NoWrap a) := by
  unfold NoWrap
  split
  · split <;> infer_instance
  · infer_instance

/-- The runs of a condition in which no offset wraps. -/
def WrapFree (C : UniqueIndex → UniqueAction → Prop) (s : UniqueIndex) (a : UniqueAction) : Prop :=
  C s a ∧ s.NoWrap a

instance (C : UniqueIndex → UniqueAction → Prop) [∀ s a, Decidable (C s a)] (s : UniqueIndex)
    (a : UniqueAction) : Decidable (WrapFree C s a) :=
  inferInstanceAs (Decidable (_ ∧ _))

theorem reachable_of_wrapFree {C : UniqueIndex → UniqueAction → Prop} {s : UniqueIndex}
    (h : uniqueSystem.ReachableBy (WrapFree C) s) : uniqueSystem.ReachableBy C s :=
  h.mono fun _ _ hc => hc.1

section Runs

variable {s s' : UniqueIndex} {low : Nat → Key} {S : Key → Prop} {columns : Key}

theorem uniqueInv_init (h : s.Init) : s.UniqueInv (fun _ => []) S := by
  obtain ⟨hdb, hleaves, hlatch, hpending, hcalls⟩ := h
  have hnone : ∀ {t c}, s.calls t ≠ some c := by simp [hcalls]
  have hunstored : ∀ t, s.unstored t = [] := fun t => by simp [unstored, hcalls, hpending]
  have hpages : ∀ p pg, s.leaves.pages p = some pg → pg = .initHeader 0 1 := by
    intro p pg hp
    rw [hleaves] at hp
    by_cases hp1 : p = 1 <;> simp [BTreeIndex.init, hp1] at hp
    exact hp.symm
  have hempty : ∀ k, ¬ s.leaves.tree.HasKey k := by
    rintro k ⟨p, n, hn, -, e, he, -⟩
    obtain ⟨pg, hp, rfl⟩ := BTreeIndex.pages_of_tree hn
    obtain rfl := hpages p pg hp
    simp [show (BtreePage.initHeader 0 1).node.entries = [] from rfl] at he
  refine ⟨⟨s.db, hdb, .refl⟩, ⟨hleaves ▸ BTreeIndex.shape_init, fun p pg hp => ?_⟩,
    ⟨fun t c hc => absurd hc hnone, fun t c hc => absurd hc hnone⟩, fun t c hc => absurd hc hnone,
    fun t c hc => absurd hc hnone,
      ⟨fun t => ?_, fun t => ?_, fun t => ?_, fun columns x _ hkey => ?_⟩,
    fun columns x y _ _ hkey => absurd hkey (hempty _)⟩
  · rw [hpages p pg hp]
    rfl
  · simp [hunstored]
  · simp [hunstored]
  · simp [hunstored]
  · exact absurd hkey (hempty _)

theorem uniqueInv_step (hS : PrefixFree S) {a : UniqueAction} (h : s.UniqueInv low S)
    (hc : Regular signBit S s a) (hs : s.step a = some s') : ∃ low', s'.UniqueInv low' S := by
  cases a with
  | table a =>
      simp only [step, Option.ite_none_right_eq_some, Bool.and_eq_true,
        Option.isNone_iff_eq_none] at hs
      obtain ⟨⟨hfree, hfits⟩, hs⟩ := hs
      obtain ⟨db, hstep, rfl⟩ := Option.map_eq_some_iff.mp hs
      exact ⟨low, h.onTable hfree hfits hc hstep⟩
  | insertUnique t columns tid start =>
      simp only [step, Option.ite_none_right_eq_some, Option.isNone_iff_eq_none,
        List.contains_iff_mem] at hs
      obtain ⟨⟨hctl, hfree, hmem, hlen, hstart⟩, hs⟩ := hs
      obtain rfl := Option.some.inj hs
      exact ⟨low, h.invoked hc hctl hfree hmem hlen ((mem_leavesUpTo h.leaves).mp hstart)⟩
  | run t =>
      simp only [step] at hs
      cases hcall : s.calls t with
      | none => simp [hcall] at hs
      | some c =>
          simp only [hcall] at hs
          cases hrun : s.runCall t c with
          | error e => simp [hrun] at hs
          | ok s₁ =>
              simp only [hrun, Option.some.injEq] at hs
              subst hs
              exact h.call hS hcall (callStep_of_run hrun)

theorem uniqueInv_reachable (hS : PrefixFree S)
    (hr : uniqueSystem.ReachableBy (Regular signBit S) s) :
    ∃ low, s.UniqueInv low S := by
  refine hr.invariant (P := fun s => ∃ low, s.UniqueInv low S)
    (fun s hinit => ⟨_, uniqueInv_init hinit⟩) ?_
  rintro s a s' ⟨low, h⟩ hc hs
  exact uniqueInv_step hS h hc hs

theorem Stored.hasKey {tid : Nat} (hl : s.Leaves low S) (h : s.Stored columns tid) :
    s.leaves.tree.HasKey (buildKey columns tid) := by
  obtain ⟨-, pid, pg, hp, o, ho, heq⟩ := h
  obtain ⟨j, hj, rfl⟩ := List.mem_iff_getElem.mp ho
  rw [← Layout.slot_eq hj] at heq
  obtain ⟨e, he, hkey⟩ := (hl.mem_entries hp _).mpr ⟨j, hj, heq⟩
  exact ⟨pid, pg.node, BTreeIndex.tree_nodes hp, hl.level pid pg hp, e, he, hkey⟩

/-- **One live tuple.** If no columns are a proper prefix of others, timestamps stay
below the bit that marks uncommitted versions and no offset wraps, at most one of the tuples
under the same columns is live at a time, and at most one transaction has an uncommitted one. -/
theorem one_live_tuple (hS : PrefixFree S)
    (hr : uniqueSystem.ReachableBy (WrapFree (Regular signBit S)) s)
    (columns : Key) : s.Unique columns := by
  obtain ⟨low, h⟩ := uniqueInv_reachable hS (reachable_of_wrapFree hr)
  have hcommit := Db.commitInv_reachable (by decide) h.db
  have hchain := Db.chainInv_reachable h.db
  have htuple := Db.tupleInv_reachable h.db
  have hcases : ∀ {x y}, s.Stored columns x → s.Stored columns y → x ≠ y →
      s.Superseded x y ∨ s.Superseded y x := fun hx hy hne =>
    h.unique columns _ _ hx.1 hy.1 (hx.hasKey h.leaves) (hy.hasKey h.leaves) hne
  refine ⟨fun stamp x y hx hy hlx hly => ?_, fun t u ht hu => ?_⟩
  · by_contra hne
    rcases hcases hx hy hne with ⟨t, hins, hrem⟩ | ⟨t, hins, hrem⟩
    · exact hrem.not_liveAt hcommit hchain htuple hins hly hlx
    · exact hrem.not_liveAt hcommit hchain htuple hins hlx hly
  · obtain ⟨-, x, hx, hinsx, hdelx⟩ := ht
    obtain ⟨-, y, hy, hinsy, hdely⟩ := hu
    by_cases hxy : x = y
    · subst hxy
      exact hinsx.owner htuple hinsy
    · -- one of the two has been deleted
      rcases hcases hx hy hxy with ⟨_, _, p, hp, hkind, _⟩ | ⟨_, _, p, hp, hkind, _⟩
      · exact absurd hkind (hdelx p hp)
      · exact absurd hkind (hdely p hp)

end Runs

/-! ## Schedules -/

/-- An empty index on a table without tuples. -/
def fresh : UniqueIndex := ⟨1, Db.empty, .init, fun _ => none, fun _ => [], fun _ => none⟩

theorem fresh_init : fresh.Init :=
  ⟨Db.empty_init, rfl, fun _ => rfl, fun _ => rfl, fun _ => rfl⟩

/-- The tuple in a row of the first page. -/
def rowId (idx : Nat) : Nat := TupleId.value ⟨1, idx⟩

def begins (t : TxnId) : List UniqueAction := [.table (.begin t), .table (.spin t)]

/-- `Table::Insert` of row `idx`, and `InsertUnique` of it in `n` steps. -/
def inserts (t : TxnId) (columns : Key) (idx n : Nat) : List UniqueAction :=
  [.table (.insert t 1 1 []), .insertUnique t columns (rowId idx) 1] ++ List.replicate n (.run t)

/-- `DeleteUndoRaw` of row `idx`. -/
def deletes (t : TxnId) (idx : Nat) : List UniqueAction :=
  .table (.write t .deleteRaw ⟨1, 1, idx⟩) :: List.replicate 4 (.table (.run t))

/-- `Commit`, of `n` steps after the latch. -/
def commits (t : TxnId) (n : Nat) : List UniqueAction :=
  .table (.commit t) :: List.replicate n (.table (.run t))

/-- The key of row `idx` is in the first leaf. -/
def InFirstLeaf (s : UniqueIndex) (columns : Key) (idx : Nat) : Prop :=
  ∃ pg ∈ s.leaves.pages 1, ∃ o ∈ pg.slots, leaf.slotKey pg o = buildKey columns (rowId idx)

instance (s : UniqueIndex) (columns : Key) (idx : Nat) : Decidable (s.InFirstLeaf columns idx) :=
  inferInstanceAs (Decidable (∃ pg ∈ s.leaves.pages 1, _))

theorem InFirstLeaf.stored {s : UniqueIndex} {columns : Key} {idx : Nat}
    (h : s.InFirstLeaf columns idx) (hidx : idx < 2 ^ 32) : s.Stored columns (rowId idx) := by
  refine ⟨?_, 1, h⟩
  simp only [rowId, TupleId.value]
  omega

/-- Transaction 0 inserts a row and commits; transaction 1 deletes it and inserts another
one under the same columns. -/
def replaceRow : List UniqueAction :=
  begins 0 ++ inserts 0 (toBE 8 1) 0 5 ++ commits 0 3 ++ begins 1 ++ deletes 1 0 ++
    inserts 1 (toBE 8 1) 1 7

theorem one_live_tuple_replaceRow : ∃ s,
    uniqueSystem.exec (WrapFree (Regular signBit (FixedWidth 8))) fresh replaceRow = some s ∧
      s.Stored (toBE 8 1) (rowId 0) ∧ s.Stored (toBE 8 1) (rowId 1) ∧ s.Unique (toBE 8 1) := by
  have hrun :
      (uniqueSystem.exec (WrapFree (Regular signBit (FixedWidth 8))) fresh replaceRow).map (fun s =>
      decide (s.InFirstLeaf (toBE 8 1) 0 ∧ s.InFirstLeaf (toBE 8 1) 1)) = some true := by
    decide +kernel
  obtain ⟨s, hexec, hstored⟩ := Option.map_eq_some_iff.mp hrun
  obtain ⟨h0, h1⟩ := of_decide_eq_true hstored
  exact ⟨s, hexec, h0.stored (by decide), h1.stored (by decide),
    one_live_tuple (prefixFree_fixedWidth 8) ⟨fresh, fresh_init, .of_exec _ hexec⟩ _⟩

/-- Row 0 has the text `"a\0"`, rows 1 and 2 have `"a"`. The key of row 0 sorts before that
of row 1, and ends the scan of the second transaction. -/
def nulRun : List UniqueAction :=
  begins 0 ++ inserts 0 [byte 97, byte 0, byte 0] 0 5 ++ inserts 0
    [byte 97, byte 0] 1 5 ++ begins 1 ++
    inserts 1 [byte 97, byte 0] 2 5

/-- The transaction is active, and nobody has deleted row `idx`, which it has inserted. -/
def OwnsRow (s : UniqueIndex) (t : TxnId) (columns : Key) (idx : Nat) : Prop :=
  (s.db.txns t).ctl = .active ∧ s.InFirstLeaf columns idx ∧
    s.db.InsertedBy t (s.slotOf (rowId idx)) ∧
    ∀ p ∈ s.db.versions (s.slotOf (rowId idx)), s.db.kind p ≠ some .delete

instance (s : UniqueIndex) (t : TxnId) (columns : Key) (idx : Nat) :
    Decidable (s.OwnsRow t columns idx) :=
  inferInstanceAs (Decidable (_ ∧ _ ∧ _ ∧ _))

theorem OwnsRow.owns {s : UniqueIndex} {t : TxnId} {columns : Key} {idx : Nat}
    (h : s.OwnsRow t columns idx) (hidx : idx < 2 ^ 32) : s.Owns t columns := by
  obtain ⟨hactive, hfirst, hins, hdel⟩ := h
  exact ⟨fun c => by simp [hactive], rowId idx, hfirst.stored hidx, hins, hdel⟩

/-- `n` transactions have begun. -/
def begun (n : Nat) : UniqueIndex := { fresh with db := Db.afterBegins Db.empty n }

theorem begun_reachable (S : Key → Prop) (n : Nat) :
    uniqueSystem.ReachableBy (WrapFree (Regular (2 ^ 64) S)) (begun n) := by
  have hbelow : ∀ n, u64 n < 2 ^ 64 := fun n => Nat.mod_lt _ (by decide)
  induction n with
  | zero => exact ⟨fresh, fresh_init, .refl⟩
  | succ n ih =>
      have hidle : ((Db.afterBegins Db.empty n).txns n).ctl = .idle := by
        simp [Db.afterBegins_eq Db.empty_init]
      have htime : (Db.afterBegins Db.empty n).time < 2 ^ 64 := by
        rw [Db.afterBegins_eq Db.empty_init]
        exact hbelow n
      have hbegin : uniqueSystem.step (begun n) (.table (.begin n)) =
          some { fresh with db := (Db.afterBegins Db.empty n).beginTransaction n } := by
        show ((Db.afterBegins Db.empty n).step (.begin n)).map _ = _
        rw [show (Db.afterBegins Db.empty n).step (.begin n) = _ from if_pos hidle]
        rfl
      have hspin :
          uniqueSystem.step { fresh with db := (Db.afterBegins Db.empty n).beginTransaction n }
          (.table (.spin n)) = some (begun (n + 1)) := by
        show (((Db.afterBegins Db.empty n).beginTransaction n).step (.spin n)).map _ = _
        rw [show ((Db.afterBegins Db.empty n).beginTransaction n).step (.spin n) =
          _ from if_pos (by simp)]
        rfl
      have hbegins : WrapFree (Regular (2 ^ 64) S) (begun n) (.table (.begin n)) :=
        ⟨fun _ => htime, trivial⟩
      have hspins : WrapFree (Regular (2 ^ 64) S)
          { fresh with db := (Db.afterBegins Db.empty n).beginTransaction n } (.table (.spin n)) :=
        ⟨fun h => absurd h (by simp [Db.checksOut]), trivial⟩
      exact ih.steps (.tail (.single hbegins hbegin) hspins hspin)

/-- Transactions `2 ^ 63` and `2 ^ 63 + 1` have the finish times 0 and 1, which read as
committed. The first deletes what the second inserts and does not commit. -/
def lateRun : List UniqueAction :=
  inserts (2 ^ 63 + 1) (toBE 8 1) 0 5 ++ deletes (2 ^ 63) 0 ++ inserts 0 (toBE 8 1) 1 7 ++
    commits (2 ^ 63 + 1) 3 ++ commits 0 1

/-- Two transactions have the text `"a"` at a time; and two tuples with one `BIGINT` are
live together, after timestamps have reached `2 ^ 63`. -/
theorem live_tuples_meet :
    (∃ s columns, uniqueSystem.ReachableBy (WrapFree (Regular signBit fun _ => True)) s ∧
      ¬ s.Unique columns) ∧
      ∃ s columns, uniqueSystem.ReachableBy (WrapFree (Regular (2 ^ 64) (FixedWidth 8))) s ∧
        ¬ s.Unique columns := by
  constructor
  · have hrun :
        (uniqueSystem.exec (WrapFree (Regular signBit fun _ => True)) fresh nulRun).map (fun s =>
        decide (s.OwnsRow 0 [byte 97, byte 0] 1 ∧ s.OwnsRow 1 [byte 97, byte 0] 2)) =
          some true := by
      decide +kernel
    obtain ⟨s, hexec, howns⟩ := Option.map_eq_some_iff.mp hrun
    obtain ⟨h0, h1⟩ := of_decide_eq_true howns
    refine ⟨s, [byte 97, byte 0], ⟨fresh, fresh_init, .of_exec _ hexec⟩, fun h => ?_⟩
    exact absurd (h.owner 0 1 (h0.owns (by decide)) (h1.owns (by decide))) (by decide)
  · have hbase : begun (2 ^ 63 + 2) = { fresh with db := { Db.empty with
        time := u64 (2 ^ 63 + 2)
        txns := fun t => if t < 2 ^ 63 + 2 then ⟨.active, u64 t, finishTimeOf (u64 t), [], []⟩
          else ⟨.idle, 0, 0, [], []⟩ } } := by
      rw [begun, Db.afterBegins_eq Db.empty_init]
    have hrun :
        (uniqueSystem.exec (WrapFree (Regular (2 ^ 64) (FixedWidth 8))) (begun (2 ^ 63 + 2))
          lateRun).map (fun s =>
        decide ((s.InFirstLeaf (toBE 8 1) 0 ∧ s.InFirstLeaf (toBE 8 1) 1) ∧
          s.db.LiveAt (2 ^ 64) (s.slotOf (rowId 0)) ∧ s.db.LiveAt (2 ^ 64) (s.slotOf (rowId 1)))) =
            some true := by
      rw [hbase]
      decide +kernel
    obtain ⟨s, hexec, hview⟩ := Option.map_eq_some_iff.mp hrun
    obtain ⟨⟨h0, h1⟩, hlive0, hlive1⟩ := of_decide_eq_true hview
    refine ⟨s, toBE 8 1, (begun_reachable _ _).steps (.of_exec _ hexec), fun h => ?_⟩
    exact absurd (h.live _ _ _ (h0.stored (by decide)) (h1.stored (by decide)) hlive0 hlive1)
      (by decide)

end UniqueIndex

end Db7
