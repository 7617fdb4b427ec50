import Db7.Index.PageRanges
import Db7.Index.SingleWriter
import Db7.Index.SplitRoom

/-!
# Runs in which no offset wraps

`HasSpace` subtracts in 16 bits and `AppendHeap` does not check again, so a page with
less room below the heap than a record is long takes the record all the same, somewhere
behind the page. What an index does from there on is not in its pages.

* **the condition** (`NoWrap`): the one of `Layout.NoWrap`, on the page that a thread
  has latched for an insert;
* **deletes** (`DeleteFinds`): the search of a delete ends at a slot of its leaf;
* **what they give** (`Sound.run_ne_overrun`): no thread leaves its pages. A thread
  without a next step has failed an assertion.
-/

namespace Db7

open Lib Lib.BLink Function KeyNormEncoder
open BtreeVarlenLayoutLeaf (KeyOf)

namespace Layout

variable (lay : Layout)

/-- `HasSpace`, and `Insert` or `Split`: no offset wraps. -/
def SectionNoWrap (pg : BtreePage) (key : Key) (child newPid : Nat) : Prop :=
  if lay.hasSpace pg key = true then lay.NoWrap (.ok pg) (.insert key child)
  else lay.NoWrap (.ok pg) (.split newPid key child true)

instance (pg : BtreePage) (key : Key) (child newPid : Nat) :
    Decidable (lay.SectionNoWrap pg key child newPid) := by
  unfold SectionNoWrap
  infer_instance

variable {lay} {pg : BtreePage} {key : Key} {child newPid : Nat}

/-- `Insert` stays on the page. -/
theorem SectionNoWrap.insert (h : lay.SectionNoWrap pg key child newPid) (hpage : PageInv lay pg)
    (hk : key.length < db7MaxRowSize) (hc : child < 2 ^ 32) (hspace : lay.hasSpace pg key = true) :
    lay.insertTuple pg key child ≠ .error .overrun := by
  have hrow : db7MaxRowSize = 819 := rfl
  unfold SectionNoWrap at h
  rw [if_pos hspace] at h
  have hfoot := foot_le_of_aligned hpage.aligned h
  exact insertTuple_ne_overrun hpage (by omega) hc ((hasSpace_iff hpage hfoot).mp hspace)

/-- `Split` stays on the two pages. -/
theorem SectionNoWrap.split (h : lay.SectionNoWrap pg key child newPid) (hpage : PageInv lay pg)
    (hk : key.length < db7MaxRowSize) (hc : child < 2 ^ 32)
    (hspace : ¬ lay.hasSpace pg key = true) :
    lay.split pg (.initHeader pg.level newPid) newPid key child ≠ .error .overrun := by
  unfold SectionNoWrap at h
  rw [if_neg hspace] at h
  intro hover
  have hgood := pageGood_split hpage hk hc h true
  rw [hover] at hgood
  exact hgood rfl

end Layout

namespace BTreeIndex

/-- The page section that thread `t` is about to run computes no offset that wraps. -/
def NoWrap (s : BTreeIndex) : BtreeAction → Prop
  | .run t =>
      match (s.threads t).pc, (s.threads t).op with
      | .leaf pid, .insert columns tid =>
          ∀ pg ∈ s.pages pid, Layout.leaf.hasSplit pg (buildKey columns tid) = false →
            Layout.leaf.SectionNoWrap pg (buildKey columns tid) 0 s.nextPid
      | .inter sentinel value pid, _ =>
          ∀ pg ∈ s.pages pid, Layout.inter.hasSplit pg sentinel = false →
            Layout.inter.SectionNoWrap pg sentinel value s.nextPid
      | _, _ => True
  | _ => True

instance (s : BTreeIndex) (a : BtreeAction) : Decidable (s.NoWrap a) := by
  unfold NoWrap
  split
  · split <;> infer_instance
  · infer_instance

/-- The delete that thread `t` is about to run on its leaf finds a slot there. Past the last one it
would go on with what is left in memory. -/
def DeleteFinds (s : BTreeIndex) : BtreeAction → Prop
  | .run t =>
      match (s.threads t).pc, (s.threads t).op with
      | .leaf pid, .delete columns tid =>
          ∀ pg ∈ s.pages pid, BtreeVarlenLayoutLeaf.hasSplit pg (buildKey columns tid) = false →
            BtreeVarlenLayoutLeaf.findDeletePosition pg (buildKey columns tid) < pg.count
      | _, _ => True
  | _ => True

instance (s : BTreeIndex) (a : BtreeAction) : Decidable (s.DeleteFinds a) := by
  unfold DeleteFinds
  split
  · split <;> infer_instance
  · infer_instance

/-- The runs of a condition in which no offset wraps. -/
def WrapFree (C : BTreeIndex → BtreeAction → Prop) (s : BTreeIndex) (a : BtreeAction) : Prop :=
  C s a ∧ s.NoWrap a

instance (C : BTreeIndex → BtreeAction → Prop) [∀ s a, Decidable (C s a)] (s : BTreeIndex)
    (a : BtreeAction) : Decidable (WrapFree C s a) :=
  inferInstanceAs (Decidable (_ ∧ _))

theorem reachable_of_wrapFree {C : BTreeIndex → BtreeAction → Prop} {s : BTreeIndex}
    (h : btreeSystem.ReachableBy (WrapFree C) s) : btreeSystem.ReachableBy C s :=
  h.mono fun _ _ hc => hc.1

/-- The runs of a condition in which no section leaves its page. -/
def OnPages (C : BTreeIndex → BtreeAction → Prop) (s : BTreeIndex) (a : BtreeAction) : Prop :=
  C s a ∧ s.NoWrap a ∧ s.DeleteFinds a

instance (C : BTreeIndex → BtreeAction → Prop) [∀ s a, Decidable (C s a)] (s : BTreeIndex)
    (a : BtreeAction) : Decidable (OnPages C s a) :=
  inferInstanceAs (Decidable (_ ∧ _ ∧ _))

theorem reachable_of_onPages {C : BTreeIndex → BtreeAction → Prop} {s : BTreeIndex}
    (h : btreeSystem.ReachableBy (OnPages C) s) : btreeSystem.ReachableBy C s :=
  h.mono fun _ _ hc => hc.1

/-! ## Nothing is written behind a page -/

section Overrun

variable {s : BTreeIndex} {low : Nat → Key} {S : Key → Prop} {t : Nat}

theorem bind_ne_overrun {α β : Type} {x : Except Fault α} {f : α → Except Fault β}
    (hx : x ≠ .error .overrun) (hf : ∀ a, x = .ok a → f a ≠ .error .overrun) :
    (x >>= f) ≠ .error .overrun := by
  intro hover
  rcases Layout.bind_overrun.mp hover with hover | ⟨a, ha, hover⟩
  · exact hx hover
  · exact hf a ha hover

theorem ok_ne_overrun {α : Type} {a : α} : (.ok a : Except Fault α) ≠ .error .overrun := by simp

theorem reserveNode_ne_overrun : s.reserveNode ≠ .error .overrun :=
  bind_ne_overrun Layout.assertThat_ne_overrun fun _ _ => ok_ne_overrun

theorem push_ne_overrun (pid : Nat) : s.push t pid ≠ .error .overrun :=
  bind_ne_overrun Layout.assertThat_ne_overrun fun _ _ => ok_ne_overrun

/-- A page that is there is read. -/
theorem Shape.bind_getNode (h : Shape s low S) {pid : Nat} {pg : BtreePage}
    (hp : s.pages pid = some pg)
    {α : Type} {f : BtreePage → Except Fault α} (hf : f pg ≠ .error .overrun) :
    (s.getNode pid >>= f) ≠ .error .overrun := by
  rw [h.getNode hp]
  exact hf

/-- A descent finds a child. -/
theorem Shape.child_isOk (h : Shape s low S) {pid : Nat} {pg : BtreePage}
    (hp : s.pages pid = some pg) (hlevel : pg.level ≠ 0) {key : Key} (hlow : low pid ≤ key) :
    ∃ child, BtreeVarlenLayoutIntermediate.get pg key = .ok child := by
  have hlay := BtreePage.layout_inter hlevel
  obtain ⟨c, es, hcons⟩ := (h.nodeInv hp).leftmost (Nat.pos_of_ne_zero hlevel)
  have hsorted := h.sorted hp
  rw [hlay] at hsorted
  have hentries : pg.node.entries = Layout.entries .inter pg := by
    show pg.layout.entries pg = _
    rw [hlay]
  exact BtreeVarlenLayoutIntermediate.get_isOk hsorted (hentries ▸ hcons) hlow

theorem descendStep_ne_overrun (h : Shape s low S) {pid level : Nat}
    (hat : s.tree.At low pid level (s.threads t).op.key) :
    s.descendStep t pid ≠ .error .overrun := by
  obtain ⟨pg, hp, -, hlow⟩ := page_of_at hat
  refine h.bind_getNode hp ?_
  by_cases hlevel : pg.level = 0
  · rw [if_pos hlevel]
    split <;> exact ok_ne_overrun
  · rw [if_neg hlevel]
    split
    · exact ok_ne_overrun
    · obtain ⟨child, hchild⟩ := h.child_isOk hp hlevel hlow
      rw [hchild]
      exact bind_ne_overrun ok_ne_overrun fun _ _ =>
        bind_ne_overrun (push_ne_overrun pid) fun _ _ => ok_ne_overrun

theorem redescendStep_ne_overrun (h : Shape s low S) {pid level dropLevel newPid : Nat}
    {sentinel : Key} (hat : s.tree.At low pid level sentinel) :
    s.redescendStep t dropLevel sentinel newPid pid level ≠ .error .overrun := by
  obtain ⟨pg, hp, hpg, hlow⟩ := page_of_at hat
  refine h.bind_getNode hp (bind_ne_overrun Layout.assertThat_ne_overrun fun _ _ => ?_)
  by_cases hdrop : level ≤ dropLevel
  · rw [if_pos hdrop]
    exact bind_ne_overrun (push_ne_overrun pid) fun _ _ => ok_ne_overrun
  · rw [if_neg hdrop]
    split
    · exact ok_ne_overrun
    · obtain ⟨child, hchild⟩ := h.child_isOk hp (by omega) hlow
      rw [hchild]
      exact bind_ne_overrun ok_ne_overrun fun _ _ =>
        bind_ne_overrun (push_ne_overrun pid) fun _ _ => ok_ne_overrun

/-- `InsertInternal` on a leaf. -/
theorem insertStep_ne_overrun (h : Shape s low S) {pid : Nat} {pg : BtreePage} {key : Key}
    (hp : s.pages pid = some pg) (hlevel : pg.level = 0) (hkey : key.length < db7MaxRowSize)
    (hno : Layout.leaf.hasSplit pg key = false → Layout.leaf.SectionNoWrap pg key 0 s.nextPid) :
    s.insertStep t pid key ≠ .error .overrun := by
  have hpage : Layout.PageInv .leaf pg := BtreePage.layout_leaf hlevel ▸ h.page pid pg hp
  have hzero : 0 < 2 ^ 32 := by decide
  refine h.bind_getNode hp ?_
  split
  · exact ok_ne_overrun
  · rename_i hsplit
    have hsplit' : Layout.leaf.hasSplit pg key = false := Bool.eq_false_iff.mpr hsplit
    split
    · rename_i hspace
      have hins := (hno hsplit').insert hpage hkey hzero hspace
      exact bind_ne_overrun (bind_ne_overrun Layout.assertThat_ne_overrun fun _ _ => hins)
        fun _ _ => ok_ne_overrun
    · rename_i hspace
      have hhalves := (hno hsplit').split hpage hkey hzero hspace
      rw [hlevel] at hhalves
      refine bind_ne_overrun reserveNode_ne_overrun fun r hr => ?_
      obtain ⟨_, -, hr⟩ := bind_ok.mp hr
      obtain rfl := Except.ok.inj hr
      exact bind_ne_overrun hhalves fun _ _ => ok_ne_overrun

/-- `PropagateInsert` on an inner page. -/
theorem interStep_ne_overrun (h : Shape s low S) {pid value : Nat} {pg : BtreePage} {key : Key}
    (hp : s.pages pid = some pg) (hlevel : pg.level ≠ 0) (hkey : key.length < db7MaxRowSize)
    (hvalue : value < 2 ^ 32)
    (hno : Layout.inter.hasSplit pg key = false →
      Layout.inter.SectionNoWrap pg key value s.nextPid) :
    s.interStep t key value pid ≠ .error .overrun := by
  have hpage : Layout.PageInv .inter pg := BtreePage.layout_inter hlevel ▸ h.page pid pg hp
  refine h.bind_getNode hp ?_
  split
  · exact ok_ne_overrun
  · rename_i hsplit
    have hsplit' : Layout.inter.hasSplit pg key = false := Bool.eq_false_iff.mpr hsplit
    split
    · rename_i hspace
      have hins := (hno hsplit').insert hpage hkey hvalue hspace
      exact bind_ne_overrun (bind_ne_overrun Layout.assertThat_ne_overrun fun _ _ =>
        bind_ne_overrun Layout.assertThat_ne_overrun fun _ _ => hins) fun _ _ => ok_ne_overrun
    · rename_i hspace
      have hhalves := (hno hsplit').split hpage hkey hvalue hspace
      refine bind_ne_overrun reserveNode_ne_overrun fun r hr => ?_
      obtain ⟨_, -, hr⟩ := bind_ok.mp hr
      obtain rfl := Except.ok.inj hr
      exact bind_ne_overrun hhalves fun _ _ => ok_ne_overrun

/-- `DeleteInternal` on a leaf. -/
theorem deleteStep_ne_overrun (h : Shape s low S) {pid : Nat} {pg : BtreePage} {key : Key}
    (hp : s.pages pid = some pg)
    (hfinds : BtreeVarlenLayoutLeaf.hasSplit pg key = false →
      BtreeVarlenLayoutLeaf.findDeletePosition pg key < pg.count) :
    s.deleteStep t pid key ≠ .error .overrun := by
  refine h.bind_getNode hp ?_
  split
  · exact ok_ne_overrun
  · rename_i hsplit
    refine bind_ne_overrun ?_ fun _ _ => ok_ne_overrun
    unfold BtreeVarlenLayoutLeaf.delete
    rw [if_pos (hfinds (Bool.eq_false_iff.mpr hsplit))]
    exact bind_ne_overrun Layout.assertThat_ne_overrun fun _ _ => ok_ne_overrun

/-- A key that is there is found in its leaf. -/
theorem Shape.findDeletePosition_lt (h : Shape s low S) {pid : Nat} {key : Key}
    (hat : s.tree.At low pid 0 key) (hkey : s.tree.HasKey key) :
    ∀ pg ∈ s.pages pid, BtreeVarlenLayoutLeaf.hasSplit pg key = false →
      BtreeVarlenLayoutLeaf.findDeletePosition pg key < pg.count := by
  intro pg₀ hp₀ hsplit
  obtain ⟨pg, hp, hlevel, hlow⟩ := page_of_at hat
  obtain rfl := Option.some.inj ((Option.mem_def.mp hp₀).symm.trans hp)
  have hlay := BtreePage.layout_leaf hlevel
  have hcover : Covers pg₀.node key := by
    intro b hb
    refine Layout.covers_of_not_hasSplit (Bool.eq_false_iff.mp hsplit) b ?_
    show b ∈ Layout.high .leaf pg₀
    rw [← hlay]
    exact hb
  obtain ⟨e, he, heq⟩ := h.inv.mem_of_hasKey (tree_nodes hp) hlevel hlow hcover hkey
  have hsorted := h.sorted hp
  rw [hlay] at hsorted
  have hentries : pg₀.node.entries = Layout.entries .leaf pg₀ := by
    show pg₀.layout.entries pg₀ = _
    rw [hlay]
  obtain ⟨pg', hdel⟩ := BtreeVarlenLayoutLeaf.delete_isOk hsorted ⟨e, hentries ▸ he, heq⟩
  by_contra hlast
  unfold BtreeVarlenLayoutLeaf.delete at hdel
  rw [if_neg hlast] at hdel
  cases hdel

theorem inRange_keyOf {key : Key} (h : KeyOf S key) : Layout.InRange key := by
  obtain ⟨p, t, -, -, hlen, rfl⟩ := h
  rw [Layout.InRange, length_buildKey]
  exact ⟨Nat.le_add_left .., hlen⟩

/-- The new root has room for its two separators. -/
theorem rootStep_ne_overrun {level pid newPid : Nat} {sentinel : Key}
    (hkey : KeyOf S sentinel) (hpid : pid < 2 ^ 32) (hnew : newPid < 2 ^ 32) :
    s.rootStep t level sentinel pid newPid ≠ .error .overrun := by
  have hrange := inRange_keyOf hkey
  have hne : sentinel ≠ [] := by
    rintro rfl
    exact absurd hrange.1 (by decide)
  unfold rootStep
  split
  · refine bind_ne_overrun (bind_ne_overrun reserveNode_ne_overrun fun r _ => ?_) fun _ _ =>
      ok_ne_overrun
    have hgood : Layout.PageGood Layout.inter (BtreeVarlenLayoutIntermediate.createRoot
        (.initHeader (level + 1) r.2) sentinel pid newPid) :=
      Layout.pageGood_createRoot hne hrange.2 hpid hnew
    refine bind_ne_overrun (fun hover => ?_) fun _ _ => ok_ne_overrun
    rw [hover] at hgood
    exact hgood rfl
  · exact ok_ne_overrun

/-- **No thread leaves its pages** when the offset of its section does not wrap and its delete finds
a slot. -/
theorem Sound.run_ne_overrun (h : Sound s low S) (hcall : CallOk s S t)
    (hactive : (s.threads t).pc ≠ .idle ∧ ∀ results, (s.threads t).pc ≠ .done results)
    (hleaf : ∀ columns, (s.threads t).op = .get columns → (s.threads t).pc.reading = true)
    (hno : s.NoWrap (.run t)) (hfinds : s.DeleteFinds (.run t)) :
    s.runThread t (s.threads t).pc ≠ .error .overrun := by
  have hok := h.pcOk t
  have hshape := h.shape
  have hpage : ∀ {pid n}, s.tree.nodes pid = some n → ∃ pg, s.pages pid = some pg ∧ pg.node = n :=
    fun hn => by
    obtain ⟨pg, hp, rfl⟩ := pages_of_tree hn
    exact ⟨pg, hp, rfl⟩
  cases hpc : (s.threads t).pc with
  | idle => exact absurd hpc hactive.1
  | done results => exact absurd hpc (hactive.2 results)
  | loadRoot => exact ok_ne_overrun
  | descend pid =>
      simp only [PcOk, hpc] at hok
      obtain ⟨level, hat, -⟩ := hok
      exact descendStep_ne_overrun hshape hat
  | leaf pid =>
      simp only [PcOk, hpc] at hok
      simp only [NoWrap, hpc] at hno
      simp only [DeleteFinds, hpc] at hfinds
      obtain ⟨pg, hp, hlevel, -⟩ := page_of_at hok.1
      unfold runThread
      cases hop : (s.threads t).op with
      | insert columns tid =>
          rw [hop] at hno
          have hkey := (hcall columns tid hop (by rw [hpc]; rfl)).1
          exact insertStep_ne_overrun hshape hp hlevel (inRange_keyOf hkey).2 (hno pg hp)
      | delete columns tid =>
          rw [hop] at hfinds
          exact deleteStep_ne_overrun hshape hp (hfinds pg hp)
      | get columns =>
          have hread := hleaf columns hop
          rw [hpc] at hread
          cases hread
  | root level sentinel pid newPid =>
      simp only [PcOk, hpc] at hok
      obtain ⟨-, ⟨n, hn, -⟩, ⟨m, hm, -⟩, hkey, -⟩ := hok
      obtain ⟨lpg, hl, -⟩ := hpage hn
      obtain ⟨rpg, hr, -⟩ := hpage hm
      exact rootStep_ne_overrun hkey (hshape.lt_undefined hl).2 (hshape.lt_undefined hr).2
  | reloadRoot dropLevel sentinel newPid =>
      obtain ⟨n, hn, -⟩ := hshape.inv.root
      obtain ⟨rpg, hr, -⟩ := hpage hn
      exact hshape.bind_getNode hr ok_ne_overrun
  | redescend dropLevel sentinel newPid pid level =>
      simp only [PcOk, hpc] at hok
      obtain ⟨-, -, hat, -⟩ := hok
      exact redescendStep_ne_overrun hshape hat
  | inter sentinel value pid =>
      simp only [PcOk, hpc] at hok
      simp only [NoWrap, hpc] at hno
      obtain ⟨hkey, l, ⟨m, hm, -⟩, hat, -⟩ := hok
      obtain ⟨vpg, hv, -⟩ := hpage hm
      obtain ⟨pg, hp, hlevel, -⟩ := page_of_at hat
      exact interStep_ne_overrun hshape hp (by omega) (inRange_keyOf hkey).2
        (hshape.lt_undefined hv).2
        (hno pg hp)
  | scan pid results =>
      simp only [PcOk, hpc] at hok
      obtain ⟨-, n, hn, -⟩ := hok
      obtain ⟨pg, hp, -⟩ := hpage hn
      refine hshape.bind_getNode hp ?_
      split
      · exact ok_ne_overrun
      · split
        split <;> exact ok_ne_overrun
  | follow pid results =>
      simp only [PcOk, hpc] at hok
      obtain ⟨-, n, hn, -⟩ := hok
      obtain ⟨pg, hp, -⟩ := hpage hn
      refine hshape.bind_getNode hp ?_
      split <;> exact ok_ne_overrun

/-- What one writing thread deletes is there. -/
theorem WriterInv.deleteFinds (h : WriterInv s t low S) : s.DeleteFinds (.run t) := by
  have hok := h.sound.pcOk t
  unfold DeleteFinds
  dsimp only
  split
  · rename_i pid columns tid hpc hop
    simp only [PcOk, hpc, hop] at hok
    refine h.sound.shape.findDeletePosition_lt hok.1 ?_
    have hin := h.deleting columns tid hop (by rw [hpc]; simp)
    rw [h.keys, current, if_pos (.inl (by rw [hpc]; rfl))]
    exact hin
  · trivial

/-- Of one writing thread's call. -/
theorem WriterInv.run_ne_overrun (h : WriterInv s t low S)
    (hactive : (s.threads t).pc ≠ .idle ∧ ∀ results, (s.threads t).pc ≠ .done results)
    (hno : s.NoWrap (.run t)) : s.runThread t (s.threads t).pc ≠ .error .overrun :=
  h.sound.run_ne_overrun (h.callOk t) hactive (fun columns hop => (h.reading t columns hop).1)
    hno h.deleteFinds

end Overrun

end BTreeIndex

end Db7
