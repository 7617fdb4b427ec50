import Db7.Index.PageSearch
import Db7.Index.Runs
import Db7.Index.UniqueInsert
import Db7.Txn.Lifetimes

/-!
# Latch crabbing

A call of `InsertUnique` holds the latches of the leaves that it has been through, from
the one that covers its columns with the id 0 on. So nobody else changes them, and what
`CheckUnique` has found out about their tuples stays true (`PcOk`, `PcOk.frame`).

* `CallStep` lists what a step of a call can do;
* the leaves are swept from left to right (`ScanOk`), and at the end every tuple that is
  stored under the columns has been asked for (`PcOk.removed`).
-/

namespace Db7

open Lib Lib.BLink Function KeyNormEncoder
open BtreeVarlenLayoutLeaf (KeyOf)
open BTreeIndex (Admissible)

namespace UniquePc

/-- The leaves whose latches the call holds. -/
def held : UniquePc → List Nat
  | goRight _ => []
  | crab _ visited _ | scan _ visited _ _ | judge _ visited _ _ _ | insert _ visited | free
      visited _ => visited

/-- The call has not inserted its key, and will if there is no conflict. -/
def waiting : UniquePc → Bool
  | free .. => false
  | _ => true

end UniquePc

namespace UniqueIndex

open Layout (leaf)

/-- What a step of a call can do. -/
inductive CallStep (s : UniqueIndex) (t : TxnId) (c : UniqueCall) : UniqueIndex → Prop
  | right {pid pg} : c.pc = .goRight pid → s.leaves.pages pid = some pg →
      BtreeVarlenLayoutLeaf.hasSplit pg c.descentKey = true →
        CallStep s t c (s.goto t c (.goRight pg.rlink))
  | found {pid pg} : c.pc = .goRight pid → s.latch pid = none → s.leaves.pages pid = some pg →
      ¬ BtreeVarlenLayoutLeaf.hasSplit pg c.descentKey = true →
      CallStep s t c ((s.lock t pid).goto t c
        (.scan pid [pid] none (BtreeVarlenLayoutLeaf.findStartPosition pg c.key)))
  | crab {pid visited insertPage pg} : c.pc = .crab pid visited insertPage → s.latch pid = none →
      s.leaves.pages pid = some pg →
      CallStep s t c ((s.lock t pid).goto t c (.scan pid (visited ++ [pid]) insertPage 0))
  | probe {pid visited insertPage idx pg} : c.pc = .scan pid visited insertPage idx →
      s.leaves.pages pid = some pg → idx < pg.count →
        cmpPrefix (leaf.slotKey pg (pg.slot idx)) c.key = 0 →
      CallStep s t c (s.goto t c (.judge pid visited insertPage idx
        (s.db.versions ((TupleId.ofValue (result (leaf.slotKey pg (pg.slot idx)))).slot
          s.heapTblId)).head?))
  | proceed {pid visited insertPage idx pg} : c.pc = .scan pid visited insertPage idx →
      s.leaves.pages pid = some pg →
        (idx < pg.count → cmpPrefix (leaf.slotKey pg (pg.slot idx)) c.key ≠ 0) →
      BtreeVarlenLayoutLeaf.highPrefixCmp pg c.key = true →
      CallStep s t c (s.goto t c (.crab pg.rlink visited
        (if insertPage = none ∧ ¬ BtreeVarlenLayoutLeaf.hasSplit pg c.key then some pid
          else insertPage)))
  | last {pid visited insertPage idx pg page} : c.pc = .scan pid visited insertPage idx →
      s.leaves.pages pid = some pg →
        (idx < pg.count → cmpPrefix (leaf.slotKey pg (pg.slot idx)) c.key ≠ 0) →
      ¬ BtreeVarlenLayoutLeaf.highPrefixCmp pg c.key = true →
      (if insertPage = none ∧ ¬ BtreeVarlenLayoutLeaf.hasSplit pg c.key then some pid
        else insertPage) =
        some page →
      CallStep s t c (s.goto t c (.insert page visited))
  | conflict {pid visited insertPage idx undo} : c.pc = .judge pid visited insertPage idx undo →
      s.db.uniqueConflict t undo = true → CallStep s t c (s.goto t c (.free visited false))
  | pass {pid visited insertPage idx undo} : c.pc = .judge pid visited insertPage idx undo →
      s.db.uniqueConflict t undo = false →
        CallStep s t c (s.goto t c (.scan pid visited insertPage (idx + 1)))
  | insert {page visited pg pg'} : c.pc = .insert page visited → s.leaves.pages page = some pg →
      BtreeVarlenLayoutLeaf.insert pg c.key = .ok pg' →
      CallStep s t c ({ s with leaves := s.leaves.setPage page pg' }.goto t c (.free visited true))
  | split {page visited pg l r sentinel} :
    c.pc = .insert page visited → s.leaves.pages page = some pg →
      s.leaves.nextPid < reserveLimit →
      BtreeVarlenLayoutLeaf.split pg (.initHeader 0 s.leaves.nextPid) s.leaves.nextPid c.key =
        .ok (l, r, sentinel) →
      CallStep s t c
        ({ s with leaves := s.leaves.splitPages page l r }.goto t c (.free visited true))
  | unlock {pid visited success} : c.pc = .free (pid :: visited) success →
      CallStep s t c ((s.releaseNode pid).goto t c (.free visited success))
  | ret {success} :
    c.pc = .free [] success → CallStep s t c { s with calls := update s.calls t none }

theorem callStep_of_scan {s s' : UniqueIndex} {t : TxnId} {c : UniqueCall} {pid idx : Nat}
    {visited : List Nat} {insertPage : Option Nat} (hpc : c.pc = .scan pid visited insertPage idx)
    (h : s.scanStep t c pid visited insertPage idx = .ok s') : CallStep s t c s' := by
  obtain ⟨pg, hget, h⟩ := bind_ok.mp h
  have hp := BTreeIndex.getNode_ok hget
  dsimp only at h
  split at h <;> rename_i hcond
  · obtain rfl := Except.ok.inj h
    exact .probe hpc hp hcond.1 hcond.2
  · have hstop : idx < pg.count → cmpPrefix (leaf.slotKey pg (pg.slot idx)) c.key ≠ 0 :=
      fun hlt hzero => hcond ⟨hlt, hzero⟩
    split at h <;> rename_i hproceed
    · obtain rfl := Except.ok.inj h
      exact .proceed hpc hp hstop hproceed
    · split at h <;> rename_i hpage
      · obtain rfl := Except.ok.inj h
        exact .last hpc hp hstop hproceed hpage
      · exact absurd h (by simp)

theorem callStep_of_insert {s s' : UniqueIndex} {t : TxnId} {c : UniqueCall} {page : Nat}
    {visited : List Nat}
    (hpc : c.pc = .insert page visited) (h : s.insertStep t c page visited = .ok s') :
    CallStep s t c s' := by
  obtain ⟨pg, hget, h⟩ := bind_ok.mp h
  have hp := BTreeIndex.getNode_ok hget
  split at h
  · obtain ⟨pg', hins, h⟩ := bind_ok.mp h
    obtain rfl := Except.ok.inj h
    exact .insert hpc hp hins
  · obtain ⟨⟨leaves, newPid⟩, hreserve, h⟩ := bind_ok.mp h
    obtain ⟨hnext, rfl, rfl⟩ := BTreeIndex.reserveNode_ok hreserve
    obtain ⟨⟨l, r, sentinel⟩, hsplit, h⟩ := bind_ok.mp h
    obtain rfl := Except.ok.inj h
    exact .split hpc hp hnext hsplit

theorem callStep_of_run {s s' : UniqueIndex} {t : TxnId} {c : UniqueCall}
    (h : s.runCall t c = .ok s') :
    CallStep s t c s' := by
  unfold runCall at h
  cases hpc : c.pc with
  | goRight pid =>
      simp only [hpc] at h
      split at h <;> rename_i hlatch
      · obtain ⟨pg, hget, h⟩ := bind_ok.mp h
        have hp := BTreeIndex.getNode_ok hget
        split at h <;> rename_i hsplit <;> obtain rfl := Except.ok.inj h
        · exact .right hpc hp hsplit
        · exact .found hpc hlatch hp hsplit
      · exact absurd h (by simp)
  | crab pid visited insertPage =>
      simp only [hpc] at h
      split at h <;> rename_i hlatch
      · obtain ⟨pg, hget, h⟩ := bind_ok.mp h
        obtain rfl := Except.ok.inj h
        exact .crab hpc hlatch (BTreeIndex.getNode_ok hget)
      · exact absurd h (by simp)
  | scan pid visited insertPage idx =>
      simp only [hpc] at h
      exact callStep_of_scan hpc h
  | judge pid visited insertPage idx undo =>
      simp only [hpc] at h
      obtain rfl := Except.ok.inj h
      unfold judgeStep
      split <;> rename_i hconflict
      · exact .conflict hpc hconflict
      · exact .pass hpc (by simpa using hconflict)
  | insert page visited =>
      simp only [hpc] at h
      exact callStep_of_insert hpc h
  | free visited success =>
      simp only [hpc] at h
      obtain rfl := Except.ok.inj h
      cases visited with
      | nil => exact .ret hpc
      | cons pid visited => exact .unlock hpc

/-! ## What a call knows -/

/-- The tuple with this id. -/
def slotOf (s : UniqueIndex) (tid : Nat) : Slot := (TupleId.ofValue tid).slot s.heapTblId

/-- No tuple in the leaf under the columns is in the way of `t`. -/
def PageClear (s : UniqueIndex) (t : TxnId) (columns : Key) (p : Nat) : Prop :=
  ∀ pg, s.leaves.pages p = some pg → ∀ e ∈ pg.node.entries, ∀ x, x < 2 ^ 64 →
    e.1 = buildKey columns x →
    s.db.Removed t (s.slotOf x)

/-- The leaf covers the key. -/
def Target (s : UniqueIndex) (low : Nat → Key) (key : Key) (p : Nat) : Prop :=
  ∃ pg, s.leaves.pages p = some pg ∧ low p ≤ key ∧ ¬ BtreeVarlenLayoutLeaf.hasSplit pg key = true

/-- The leaf to insert into has been found, or lies at or right of `pid`. -/
structure Sought (s : UniqueIndex) (low : Nat → Key) (key : Key) (pid : Nat) (visited : List Nat)
    (insertPage : Option Nat) : Prop where
  ahead : insertPage = none → low pid ≤ key
  found : ∀ p, insertPage = some p → p ∈ visited ∧ s.Target low key p

/-- `CheckUnique` before slot `idx`. -/
structure ScanOk (s : UniqueIndex) (low : Nat → Key) (t : TxnId) (c : UniqueCall) (pid : Nat)
    (visited : List Nat) (insertPage : Option Nat) (idx : Nat) (pg : BtreePage) : Prop where
  page : s.leaves.pages pid = some pg
  mem : pid ∈ visited
  swept : s.leaves.tree.Swept low 0 c.descentKey visited pg.node.high
  covers : ∃ u, u < 2 ^ 64 ∧ Covers pg.node (buildKey c.columns u)
  sought : s.Sought low c.key pid visited insertPage
  clear : ∀ p ∈ visited, p ≠ pid → s.PageClear t c.columns p
  before : ∀ j, j < idx → j < pg.count → ∀ x, x < 2 ^ 64 →
    leaf.slotKey pg (pg.slot j) = buildKey c.columns x → s.db.Removed t (s.slotOf x)
  after : ∀ j, idx ≤ j → j < pg.count → c.descentKey ≤ leaf.slotKey pg (pg.slot j)

/-- What a call knows about the leaves and the tuples under its columns. -/
def PcOk (s : UniqueIndex) (low : Nat → Key) (t : TxnId) (c : UniqueCall) : Prop :=
  match c.pc with
  | .goRight pid => s.leaves.tree.At low pid 0 c.descentKey
  | .crab pid visited insertPage => (∃ n, s.leaves.tree.nodes pid = some n ∧ n.level = 0) ∧
      s.leaves.tree.Swept low 0 c.descentKey visited (some (low pid)) ∧
      (∃ u, u < 2 ^ 64 ∧ low pid = buildKey c.columns u) ∧
        s.Sought low c.key pid visited insertPage ∧
      ∀ p ∈ visited, s.PageClear t c.columns p
  | .scan pid visited insertPage idx => ∃ pg, s.ScanOk low t c pid visited insertPage idx pg
  | .judge pid visited insertPage idx undo => ∃ pg, s.ScanOk low t c pid visited insertPage idx pg ∧
      ∀ x, x < 2 ^ 64 → leaf.slotKey pg (pg.slot idx) = buildKey c.columns x →
        ∀ p, undo = some p → p ∈ s.db.versions (s.slotOf x)
  | .insert page visited => page ∈ visited ∧ s.Target low c.key page ∧
      ∃ frontier, s.leaves.tree.Swept low 0 c.descentKey visited frontier ∧
        (∀ x, x < 2 ^ 64 → ∀ b ∈ frontier, buildKey c.columns x < b) ∧
        ∀ p ∈ visited, s.PageClear t c.columns p
  | .free .. => True

/-- A step of somebody else, from the side of a call that holds some latches. -/
structure Undisturbed (s s' : UniqueIndex) (low low' : Nat → Key) (t : TxnId) (held : List Nat) :
    Prop where
  tbl : s'.heapTblId = s.heapTblId
  grows : LinkTree.Grows s.leaves.tree s'.leaves.tree low low'
  pages : ∀ p ∈ held, s'.leaves.pages p = s.leaves.pages p
  new : ∀ q m, s'.leaves.tree.nodes q = some m → s.leaves.tree.nodes q = none → ∃ p n, p ∉ held ∧
    s.leaves.tree.nodes p = some n ∧ n.level = m.level ∧ low p ≤ low' q ∧ HighLe m.high n.high
  removed : ∀ x, s.db.Removed t x → s'.db.Removed t x
  versions : ∀ x, ∀ p ∈ s.db.versions x, p ∈ s'.db.versions x

section Frame

variable {s s' : UniqueIndex} {low low' : Nat → Key} {t : TxnId} {c : UniqueCall}
  {held visited : List Nat} {p pid : Nat} {insertPage : Option Nat}

/-- A step that leaves the pages alone. -/
theorem Undisturbed.of_leaves (htbl : s'.heapTblId = s.heapTblId) (hleaves : s'.leaves = s.leaves)
    (hremoved : ∀ x, s.db.Removed t x → s'.db.Removed t x)
    (hversions : ∀ x, ∀ p ∈ s.db.versions x, p ∈ s'.db.versions x) :
    Undisturbed s s' low low t held where
  tbl := htbl
  grows := by
    rw [hleaves]
    exact .refl _ _
  pages p _ := by rw [hleaves]
  new q m hm hnone := by
    rw [hleaves, hnone] at hm
    exact absurd hm (by simp)
  removed := hremoved
  versions := hversions

namespace Undisturbed

variable (h : Undisturbed s s' low low' t held)

include h

theorem slotOf (tid : Nat) : s'.slotOf tid = s.slotOf tid := by
  rw [UniqueIndex.slotOf, UniqueIndex.slotOf, h.tbl]

theorem swept {k : Key} {frontier : Option Key} (hw : s.leaves.tree.Swept low 0 k held frontier) :
    s'.leaves.tree.Swept low' 0 k held frontier := by
  refine hw.grows h.grows (fun p hp => ?_) h.new
  simp only [BTreeIndex.tree, h.pages p hp]

theorem pageClear {columns : Key} (hp : p ∈ held) (hc : s.PageClear t columns p) :
    s'.PageClear t columns p := by
  intro pg hpg e he x hx heq
  rw [h.pages p hp] at hpg
  rw [h.slotOf]
  exact h.removed _ (hc pg hpg e he x hx heq)

theorem target {key : Key} (hp : p ∈ held) (ht : s.Target low key p) : s'.Target low' key p := by
  obtain ⟨pg, hpg, hlow, hsplit⟩ := ht
  exact ⟨pg, by rw [h.pages p hp, hpg],
    by rw [h.grows.low p _ (BTreeIndex.tree_nodes hpg)]; exact hlow, hsplit⟩

theorem sought {key : Key} {n : Node Key} (hpid : s.leaves.tree.nodes pid = some n)
    (hs : s.Sought low key pid held insertPage) : s'.Sought low' key pid held insertPage := by
  refine ⟨fun hnone => ?_, fun p hp => ?_⟩
  · rw [h.grows.low pid n hpid]
    exact hs.ahead hnone
  · obtain ⟨hmem, htarget⟩ := hs.found p hp
    exact ⟨hmem, h.target hmem htarget⟩

theorem scanOk {idx : Nat} {pg : BtreePage} (hs : s.ScanOk low t c pid held insertPage idx pg) :
    s'.ScanOk low' t c pid held insertPage idx pg where
  page := by rw [h.pages pid hs.mem, hs.page]
  mem := hs.mem
  swept := h.swept hs.swept
  covers := hs.covers
  sought := h.sought (BTreeIndex.tree_nodes hs.page) hs.sought
  clear p hp hne := h.pageClear hp (hs.clear p hp hne)
  before j hj hcount x hx heq := by
    rw [h.slotOf]
    exact h.removed _ (hs.before j hj hcount x hx heq)
  after := hs.after

end Undisturbed

/-- What a call knows stays true while others take steps. -/
theorem PcOk.frame (h : Undisturbed s s' low low' t c.pc.held) (hok : s.PcOk low t c) :
    s'.PcOk low' t c := by
  unfold PcOk at hok ⊢
  cases hpc : c.pc with
  | goRight pid =>
      simp only [hpc] at hok ⊢
      exact hok.grows h.grows
  | crab pid visited insertPage =>
      simp only [hpc, UniquePc.held] at hok h ⊢
      obtain ⟨⟨n, hn, hlevel⟩, hswept, ⟨u, hu, hlow⟩, hsought, hclear⟩ := hok
      obtain ⟨n', hn', hlevel', -⟩ := h.grows.node pid n hn
      have heq := h.grows.low pid n hn
      exact ⟨⟨n', hn', hlevel'.trans hlevel⟩, heq ▸ h.swept hswept, ⟨u, hu, heq.trans hlow⟩,
        h.sought hn hsought, fun p hp => h.pageClear hp (hclear p hp)⟩
  | scan pid visited insertPage idx =>
      simp only [hpc, UniquePc.held] at hok h ⊢
      obtain ⟨pg, hscan⟩ := hok
      exact ⟨pg, h.scanOk hscan⟩
  | judge pid visited insertPage idx undo =>
      simp only [hpc, UniquePc.held] at hok h ⊢
      obtain ⟨pg, hscan, hundo⟩ := hok
      refine ⟨pg, h.scanOk hscan, fun x hx heq p hp => ?_⟩
      rw [h.slotOf]
      exact h.versions _ p (hundo x hx heq p hp)
  | insert page visited =>
      simp only [hpc, UniquePc.held] at hok h ⊢
      obtain ⟨hmem, htarget, frontier, hswept, hbelow, hclear⟩ := hok
      exact ⟨hmem, h.target hmem htarget, frontier, h.swept hswept, hbelow,
        fun p hp => h.pageClear hp (hclear p hp)⟩
  | free visited success => trivial

end Frame

/-! ## The leaves -/

/-- The pages of the index are the leaves of a B-link tree. -/
structure Leaves (s : UniqueIndex) (low : Nat → Key) (S : Key → Prop) : Prop where
  shape : s.leaves.Shape low S
  level : ∀ p pg, s.leaves.pages p = some pg → pg.level = 0

section Leaf

variable {s : UniqueIndex} {low : Nat → Key} {S : Key → Prop} {p : Nat} {pg : BtreePage}
  {columns : Key}

theorem Leaves.layout (h : s.Leaves low S) (hp : s.leaves.pages p = some pg) : pg.layout = .leaf :=
  BtreePage.layout_leaf (h.level p pg hp)

theorem Leaves.sorted (h : s.Leaves low S) (hp : s.leaves.pages p = some pg) :
    Layout.Sorted .leaf pg :=
  h.layout hp ▸ h.shape.sorted hp

theorem Leaves.entries (h : s.Leaves low S) (hp : s.leaves.pages p = some pg) :
    pg.node.entries = leaf.entries pg := by
  show pg.layout.entries pg = _
  rw [h.layout hp]

theorem Leaves.high (h : s.Leaves low S) (hp : s.leaves.pages p = some pg) :
    pg.node.high = leaf.high pg := by
  show pg.layout.high pg = _
  rw [h.layout hp]

/-- The keys of a leaf are those of its slots. -/
theorem Leaves.mem_entries (h : s.Leaves low S) (hp : s.leaves.pages p = some pg) (k : Key) :
    (∃ e ∈ pg.node.entries, e.1 = k) ↔ ∃ j, j < pg.count ∧ leaf.slotKey pg (pg.slot j) = k := by
  rw [h.entries hp]
  constructor
  · rintro ⟨e, he, rfl⟩
    obtain ⟨j, hj, rfl⟩ := List.mem_iff_getElem.mp he
    exact ⟨j, by rwa [Layout.length_entries] at hj, by rw [Layout.getElem_entries]; rfl⟩
  · rintro ⟨j, hj, rfl⟩
    have hlen : (leaf.entries pg).length = pg.count := Layout.length_entries
    rw [← hlen] at hj
    exact ⟨_, List.getElem_mem hj, by rw [Layout.getElem_entries]; rfl⟩

theorem Leaves.keyOf_slot (h : s.Leaves low S) (hp : s.leaves.pages p = some pg) {j : Nat}
    (hj : j < pg.count) : KeyOf S (leaf.slotKey pg (pg.slot j)) := by
  obtain ⟨e, he, heq⟩ := (h.mem_entries hp _).mpr ⟨j, hj, rfl⟩
  rw [← heq]
  exact (h.shape.keys p pg hp).leaf (h.level p pg hp) e he

/-- The test of the loop of `CheckUnique`. -/
theorem Leaves.cmpPrefix_slot (h : s.Leaves low S) (hp : s.leaves.pages p = some pg) {j tid : Nat}
    (hj : j < pg.count) : cmpPrefix (leaf.slotKey pg (pg.slot j)) (buildKey columns tid) = 0 ↔
      ∃ x, x < 2 ^ 64 ∧ leaf.slotKey pg (pg.slot j) = buildKey columns x := by
  obtain ⟨q, x, -, hx, hlen, heq⟩ := h.keyOf_slot hp hj
  rw [heq, BtreeVarlenLayoutLeaf.cmpPrefix_buildKey hlen]
  constructor
  · rintro rfl
    exact ⟨x, hx, rfl⟩
  · rintro ⟨y, hy, hkey⟩
    exact ((buildKey_inj hx hy).mp hkey).1

/-- The result of `CheckUnique`: the fence has the columns. -/
theorem Leaves.highPrefixCmp (h : s.Leaves low S) (hp : s.leaves.pages p = some pg) {tid : Nat} :
    BtreeVarlenLayoutLeaf.highPrefixCmp pg (buildKey columns tid) = true ↔
      ∃ x, x < 2 ^ 64 ∧ buildKey columns x ∈ pg.node.high := by
  have hhigh := h.high hp
  rw [BtreeVarlenLayoutLeaf.highPrefixCmp_iff, hhigh]
  constructor
  · rintro ⟨b, hb, hcmp⟩
    obtain ⟨q, x, -, hx, hlen, rfl⟩ := (h.shape.keys p pg hp).high b (by rw [hhigh]; exact hb)
    obtain rfl := (BtreeVarlenLayoutLeaf.cmpPrefix_buildKey hlen).mp hcmp
    exact ⟨x, hx, hb⟩
  · rintro ⟨x, hx, hb⟩
    obtain ⟨q, y, -, hy, hlen, heq⟩ := (h.shape.keys p pg hp).high _ (by rw [hhigh]; exact hb)
    obtain ⟨rfl, rfl⟩ := (buildKey_inj hx hy).mp heq
    exact ⟨_, hb, (BtreeVarlenLayoutLeaf.cmpPrefix_buildKey hlen).mpr rfl⟩

/-- Where the loop starts. -/
theorem Leaves.findStartPosition (h : s.Leaves low S) (hS : PrefixFree S)
    (hp : s.leaves.pages p = some pg)
    (hcolumns : S columns) (hlen : columns.length + 8 < db7MaxRowSize) {tid : Nat}
    (htid : tid < 2 ^ 64) :
    Parts (fun j => decide (leaf.slotKey pg (pg.slot j) < buildKey columns 0)) pg.count
      (BtreeVarlenLayoutLeaf.findStartPosition pg (buildKey columns tid)) := by
  have hpart : columnPart (buildKey columns tid) = columns := take_buildKey columns tid
  have hkeys : ∀ k ∈ BtreeVarlenLayoutLeaf.keysWith pg (buildKey columns tid), KeyOf S k := by
    intro k hk
    rcases List.mem_cons.mp hk with rfl | hk
    · exact ⟨columns, tid, hcolumns, htid, hlen, rfl⟩
    · obtain ⟨o, ho, rfl⟩ := List.mem_map.mp hk
      obtain ⟨j, hj, rfl⟩ := List.mem_iff_getElem.mp ho
      rw [← Layout.slot_eq hj]
      exact h.keyOf_slot hp hj
  have hcols : BtreeVarlenLayoutLeaf.Columned pg (buildKey columns tid) := by
    refine ⟨fun k hk => ?_, fun a ha b hb => ?_⟩
    · obtain ⟨q, x, -, -, hq, rfl⟩ := hkeys k hk
      rw [length_buildKey]
      omega
    · obtain ⟨q, x, hq, -, -, rfl⟩ := hkeys a ha
      obtain ⟨r, y, hr, -, -, rfl⟩ := hkeys b hb
      simp only [columnPart, take_buildKey]
      exact hS q r hq hr
  refine (BtreeVarlenLayoutLeaf.findStartPosition_parts (h.sorted hp) hcols).congr fun j _ => ?_
  rw [hpart, decide_eq_decide, cmpFull_neg]

/-- From a key that is not below the columns with the id 0, and has others, on there are
no keys with the columns. -/
theorem Leaves.none_after (h : s.Leaves low S) (hS : PrefixFree S) (hp : s.leaves.pages p = some pg)
    (hcolumns : S columns) {i j tid : Nat} (hij : i ≤ j) (hj : j < pg.count)
    (hle : buildKey columns 0 ≤ leaf.slotKey pg (pg.slot i))
    (hstop : cmpPrefix (leaf.slotKey pg (pg.slot i)) (buildKey columns tid) ≠ 0) {x : Nat} :
    leaf.slotKey pg (pg.slot j) ≠ buildKey columns x := by
  intro heq
  obtain ⟨q, y, hq, hy, hlen, hkey⟩ := h.keyOf_slot hp (show i < pg.count by omega)
  have hkeys := Layout.key_le_key (h.sorted hp) hij hj
  rw [heq, hkey] at hkeys
  rw [hkey] at hle
  refine hstop ((h.cmpPrefix_slot hp (by omega)).mpr ⟨y, hy, ?_⟩)
  rw [hkey, eq_of_between hS hcolumns hq hle hkeys]

end Leaf

/-! ## What a step of the call itself finds out -/

section Own

variable {s : UniqueIndex} {low : Nat → Key} {S : Key → Prop} {t : TxnId} {c : UniqueCall}
  {pid idx : Nat} {visited : List Nat} {insertPage : Option Nat} {pg : BtreePage}

/-- The leaf to insert into after the test of `pid`. -/
theorem Sought.test (h : s.Sought low c.key pid visited insertPage)
    (hp : s.leaves.pages pid = some pg) (hmem : pid ∈ visited) :
    let insertPage' :=
      if insertPage = none ∧ ¬ BtreeVarlenLayoutLeaf.hasSplit pg c.key then some pid else insertPage
    (insertPage' = none → BtreeVarlenLayoutLeaf.hasSplit pg c.key = true) ∧
      ∀ p, insertPage' = some p → p ∈ visited ∧ s.Target low c.key p := by
  intro insertPage'
  by_cases htest : insertPage = none ∧ ¬ BtreeVarlenLayoutLeaf.hasSplit pg c.key
  · have heq : insertPage' = some pid := if_pos htest
    refine ⟨fun hnone => absurd (heq.symm.trans hnone) (by simp), fun p hp' => ?_⟩
    obtain rfl := Option.some.inj (heq.symm.trans hp')
    exact ⟨hmem, pg, hp, h.ahead htest.1, htest.2⟩
  · have heq : insertPage' = insertPage := if_neg htest
    rw [heq]
    refine ⟨fun hnone => ?_, h.found⟩
    by_contra hsplit
    exact htest ⟨hnone, hsplit⟩

/-- At the end of the loop the leaf is clear. -/
theorem ScanOk.pageClear (hl : s.Leaves low S) (hS : PrefixFree S)
    (hc : Admissible S c.columns c.tid) (h : s.ScanOk low t c pid visited insertPage idx pg)
    (hstop : idx < pg.count → cmpPrefix (leaf.slotKey pg (pg.slot idx)) c.key ≠ 0) :
    ∀ p ∈ visited, s.PageClear t c.columns p := by
  intro p hp
  by_cases hne : p = pid
  · subst hne
    intro pg' hpg' e he x hx heq
    obtain rfl := Option.some.inj (h.page.symm.trans hpg')
    obtain ⟨j, hj, hkey⟩ := (hl.mem_entries h.page e.1).mp ⟨e, he, rfl⟩
    rw [heq] at hkey
    by_cases hlt : j < idx
    · exact h.before j hlt hj x hx hkey
    · -- the loop has stopped at a key with other columns
      have hidx : idx ≤ j := not_lt.mp hlt
      exact absurd hkey (hl.none_after hS h.page hc.1 hidx hj (h.after idx le_rfl (by omega))
        (hstop (by omega)))
  · exact h.clear p hp hne

theorem pcOk_right (hl : s.Leaves low S) (hp : s.leaves.pages pid = some pg)
    (hsplit : BtreeVarlenLayoutLeaf.hasSplit pg c.descentKey = true) :
    s.PcOk low t { c with pc := .goRight pg.rlink } := by
  obtain ⟨hat, -⟩ := hl.shape.at_right hp (hl.layout hp) hsplit
  rw [hl.level pid pg hp] at hat
  exact hat

theorem pcOk_found (hl : s.Leaves low S) (hS : PrefixFree S) (hc : Admissible S c.columns c.tid)
    (hat : s.leaves.tree.At low pid 0 c.descentKey) (hp : s.leaves.pages pid = some pg)
    (hsplit : ¬ BtreeVarlenLayoutLeaf.hasSplit pg c.descentKey = true) :
    s.PcOk low t { c with
      pc := .scan pid [pid] none (BtreeVarlenLayoutLeaf.findStartPosition pg c.key) } := by
  obtain ⟨pg', hp', hlevel, hlow⟩ := BTreeIndex.page_of_at hat
  obtain rfl := Option.some.inj (hp.symm.trans hp')
  have hcov : Covers pg.node c.descentKey := BTreeIndex.covers_node (hl.layout hp) hsplit
  have hparts := hl.findStartPosition hS hp hc.1 hc.2.2 hc.2.1
  have hswept := LinkTree.Swept.start hl.shape.inv (BTreeIndex.tree_nodes hp) hlow
  rw [show pg.node.level = 0 from hlevel] at hswept
  refine ⟨pg, hp, List.mem_singleton_self pid, hswept, ⟨0, by decide, hcov⟩, ⟨fun _ => ?_, by simp⟩,
    fun p hmem hne => absurd (List.mem_singleton.mp hmem) hne, fun j hj hcount x hx heq => ?_,
      fun j hj hcount => ?_⟩
  · exact hlow.trans (buildKey_zero_le c.columns hc.2.1)
  · -- the keys before the start position are below the columns
    have hlt := of_decide_eq_true (hparts.before j hj)
    rw [heq] at hlt
    exact absurd (buildKey_zero_le c.columns hx) (not_le.mpr hlt)
  · exact not_lt.mp (of_decide_eq_false (hparts.after j hj hcount))

theorem pcOk_crab (hl : s.Leaves low S) (hpc : c.pc = .crab pid visited insertPage)
    (hok : s.PcOk low t c) (hp : s.leaves.pages pid = some pg) :
    s.PcOk low t { c with pc := .scan pid (visited ++ [pid]) insertPage 0 } := by
  simp only [PcOk, hpc] at hok
  obtain ⟨-, hswept, ⟨u, hu, hlow⟩, hsought, hclear⟩ := hok
  have hnode := BTreeIndex.tree_nodes hp
  have hn := hl.shape.nodeInv hp
  refine ⟨pg, hp, List.mem_append_right _ (List.mem_singleton_self pid),
    hswept.next hl.shape.inv hnode (hl.level pid pg hp), ⟨u, hu, fun b hb => ?_⟩,
      ⟨hsought.ahead, fun p hp => ?_⟩,
    fun p hmem hne => ?_, fun j hj => absurd hj (Nat.not_lt_zero j), fun j _ hcount => ?_⟩
  · rw [← hlow]
    exact hn.nonempty b hb
  · obtain ⟨hmem, htarget⟩ := hsought.found p hp
    exact ⟨List.mem_append_left _ hmem, htarget⟩
  · rcases List.mem_append.mp hmem with hmem | hmem
    · exact hclear p hmem
    · exact absurd (List.mem_singleton.mp hmem) hne
  · obtain ⟨e, he, heq⟩ := (hl.mem_entries hp _).mpr ⟨j, hcount, rfl⟩
    rw [← heq]
    exact (buildKey_zero_le c.columns hu).trans (hlow ▸ hn.within.lower e he)

theorem pcOk_probe (hpc : c.pc = .scan pid visited insertPage idx) (hok : s.PcOk low t c)
    (hp : s.leaves.pages pid = some pg) :
    s.PcOk low t { c with
      pc := .judge pid visited insertPage idx
        (s.db.versions (s.slotOf (result (leaf.slotKey pg (pg.slot idx))))).head? } := by
  simp only [PcOk, hpc] at hok
  obtain ⟨pg', hscan⟩ := hok
  obtain rfl := Option.some.inj (hscan.page.symm.trans hp)
  refine ⟨pg', ⟨hscan.page, hscan.mem, hscan.swept, hscan.covers, hscan.sought,
    hscan.clear, hscan.before,
    hscan.after⟩, fun x hx heq p hundo => ?_⟩
  rw [heq, result_buildKey c.columns hx] at hundo
  exact List.mem_of_head? hundo

theorem pcOk_proceed (hl : s.Leaves low S) (hS : PrefixFree S) (hc : Admissible S c.columns c.tid)
    (hpc : c.pc = .scan pid visited insertPage idx) (hok : s.PcOk low t c)
    (hp : s.leaves.pages pid = some pg)
    (hstop : idx < pg.count → cmpPrefix (leaf.slotKey pg (pg.slot idx)) c.key ≠ 0)
    (hproceed : BtreeVarlenLayoutLeaf.highPrefixCmp pg c.key = true) :
    s.PcOk low t { c with
      pc := .crab pg.rlink visited
        (if insertPage = none ∧ ¬ BtreeVarlenLayoutLeaf.hasSplit pg c.key then some pid
          else insertPage) } := by
  simp only [PcOk, hpc] at hok
  obtain ⟨pg', hscan⟩ := hok
  obtain rfl := Option.some.inj (hscan.page.symm.trans hp)
  obtain ⟨x, hx, hfence⟩ := (hl.highPrefixCmp hp).mp hproceed
  obtain ⟨m, hm, hlevel, hlow⟩ := (hl.shape.nodeInv hp).right _ hfence
  have hhigh : pg'.node.high = some (buildKey c.columns x) := hfence
  have hswept := hscan.swept
  rw [hhigh, ← hlow] at hswept
  obtain ⟨hnone, hsome⟩ := hscan.sought.test hp hscan.mem
  have hclear := hscan.pageClear hl hS hc hstop
  refine ⟨⟨m, hm, hlevel.trans (hl.level pid pg' hp)⟩, hswept, ⟨x, hx, hlow⟩, ⟨fun h => ?_, hsome⟩,
    hclear⟩
  obtain ⟨b, hb, hle⟩ := Layout.hasSplit_iff.mp (hnone h)
  rw [← hl.high hp, hhigh] at hb
  obtain rfl := Option.some.inj hb
  show low pg'.node.rlink ≤ _
  rw [hlow]
  exact hle

theorem pcOk_last (hl : s.Leaves low S) (hS : PrefixFree S) (hc : Admissible S c.columns c.tid)
    (hpc : c.pc = .scan pid visited insertPage idx) (hok : s.PcOk low t c)
    (hp : s.leaves.pages pid = some pg)
    (hstop : idx < pg.count → cmpPrefix (leaf.slotKey pg (pg.slot idx)) c.key ≠ 0)
    (hlast : ¬ BtreeVarlenLayoutLeaf.highPrefixCmp pg c.key = true) {page : Nat}
    (hpage : (if insertPage = none ∧ ¬ BtreeVarlenLayoutLeaf.hasSplit pg c.key then some pid
      else insertPage) =
      some page) : s.PcOk low t { c with pc := .insert page visited } := by
  simp only [PcOk, hpc] at hok
  obtain ⟨pg', hscan⟩ := hok
  obtain rfl := Option.some.inj (hscan.page.symm.trans hp)
  obtain ⟨hmem, htarget⟩ := (hscan.sought.test hp hscan.mem).2 page hpage
  have hclear := hscan.pageClear hl hS hc hstop
  refine ⟨hmem, htarget, pg'.node.high, hscan.swept, fun x hx b hb => ?_, hclear⟩
  -- a fence among the keys with the columns would have them
  by_contra hle
  obtain ⟨u, hu, hcov⟩ := hscan.covers
  obtain ⟨q, y, hq, hy, hlen, rfl⟩ := (hl.shape.keys pid pg' hp).high b hb
  obtain rfl := eq_of_between hS hc.1 hq (hcov _ hb).le (not_lt.mp hle)
  exact hlast ((hl.highPrefixCmp hp).mpr ⟨y, hy, hb⟩)

/-- A version without conflict is a delete. -/
theorem removed_of_not_conflict (hcommit : Db.CommitInv signBit s.db) (hchain : Db.ChainInv s.db)
    (hbegun : (s.db.txns t).ctl ≠ .idle) {x : Slot} {undo : Option RecPtr}
    (hundo : ∀ p, undo = some p → p ∈ s.db.versions x) (hok : s.db.uniqueConflict t undo = false) :
    s.db.Removed t x := by
  cases undo with
  | none => simp [Db.uniqueConflict] at hok
  | some p =>
      have hmem := hundo p rfl
      have hvalid := hchain.valid x p hmem
      obtain ⟨r, hr⟩ := Db.exists_record hvalid
      simp only [Db.uniqueConflict, Option.bind_some, hr, Bool.not_eq_false', Bool.and_eq_true,
        Bool.not_eq_true'] at hok
      obtain ⟨hdeleted, hconflict⟩ := hok
      refine ⟨p, hmem, ?_, Db.own_or_committedBy hcommit hbegun hvalid ?_⟩
      · rw [Db.kind, hr, Option.map_some]
        exact congrArg some (of_decide_eq_true hdeleted)
      · simpa [Db.hasConflict, hr, Db.conflicts] using hconflict

theorem pcOk_pass (hcommit : Db.CommitInv signBit s.db) (hchain : Db.ChainInv s.db)
    (hbegun : (s.db.txns t).ctl ≠ .idle) {undo : Option RecPtr}
    (hpc : c.pc = .judge pid visited insertPage idx undo) (hok : s.PcOk low t c)
    (hpass : s.db.uniqueConflict t undo = false) :
    s.PcOk low t { c with pc := .scan pid visited insertPage (idx + 1) } := by
  simp only [PcOk, hpc] at hok
  obtain ⟨pg, hscan, hundo⟩ := hok
  refine ⟨pg, hscan.page, hscan.mem, hscan.swept, hscan.covers, hscan.sought, hscan.clear,
    fun j hj hcount x hx heq => ?_, fun j hj => hscan.after j (by omega)⟩
  rcases Nat.lt_succ_iff_lt_or_eq.mp hj with hlt | rfl
  · exact hscan.before j hlt hcount x hx heq
  · exact removed_of_not_conflict hcommit hchain hbegun (hundo x hx heq) hpass

/-- At the end of the sweep no tuple that is stored under the columns is in the way. -/
theorem PcOk.removed (hl : s.Leaves low S) {page : Nat} (hpc : c.pc = .insert page visited)
    (hok : s.PcOk low t c) {x : Nat} (hx : x < 2 ^ 64)
    (hkey : s.leaves.tree.HasKey (buildKey c.columns x)) : s.db.Removed t (s.slotOf x) := by
  simp only [PcOk, hpc] at hok
  obtain ⟨-, -, frontier, hswept, hbelow, hclear⟩ := hok
  obtain ⟨p, n, hn, hlevel, e, he, heq⟩ := hkey
  obtain ⟨pg, hp, rfl⟩ := BTreeIndex.pages_of_tree hn
  -- the leaf covers a key of the sweep, so it has been visited
  have hwithin := (hl.shape.nodeInv hp).within
  have hseen : p ∈ visited :=
    hswept.seen _ (buildKey_zero_le c.columns hx) (hbelow x hx) p _ hn hlevel
      (heq ▸ hwithin.lower e he)
      fun b hb => heq ▸ hwithin.upper b hb e he
  exact hclear p hseen pg hp e he x hx heq

/-- A latched leaf is a page of the index. -/
theorem PcOk.held_page (hok : s.PcOk low t c) (hwaiting : c.pc.waiting = true) {p : Nat}
    (hp : p ∈ c.pc.held) : s.leaves.pages p ≠ none := by
  have hswept : ∀ {frontier}, s.leaves.tree.Swept low 0 c.descentKey c.pc.held frontier →
      s.leaves.pages p ≠ none := by
    intro frontier hswept
    obtain ⟨n, hn, -⟩ := hswept.nodes p hp
    obtain ⟨pg, hpg, -⟩ := BTreeIndex.pages_of_tree hn
    simp [hpg]
  unfold PcOk at hok
  cases hpc : c.pc with
  | goRight pid => simp [hpc, UniquePc.held] at hp
  | crab pid visited insertPage =>
      simp only [hpc, UniquePc.held] at hok hswept
      exact hswept hok.2.1
  | scan pid visited insertPage idx =>
      simp only [hpc, UniquePc.held] at hok hswept
      obtain ⟨pg, hscan⟩ := hok
      exact hswept hscan.swept
  | judge pid visited insertPage idx undo =>
      simp only [hpc, UniquePc.held] at hok hswept
      obtain ⟨pg, hscan, -⟩ := hok
      exact hswept hscan.swept
  | insert page visited =>
      simp only [hpc, UniquePc.held] at hok hswept
      obtain ⟨-, -, frontier, hfrontier, -⟩ := hok
      exact hswept hfrontier
  | free visited success => simp [hpc, UniquePc.waiting] at hwaiting

end Own

end UniqueIndex

end Db7
