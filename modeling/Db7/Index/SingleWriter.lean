import Db7.Index.Runs

/-!
# One writer

When only thread `w` inserts and deletes, every page on the root's level is the
root but for the moment between the split of the root and the section that puts
a new root on top. So the stack of `w` always reaches up to the root (`PathOk`),
and `PropagateInsert` never has to descend a second time.

`WriterInv` says in addition which keys are in the leaves: those present, with
the pending key of `w` in or out once `w` is through its leaf section.
-/

namespace Db7

open Lib Lib.BLink Function KeyNormEncoder
open BtreeVarlenLayoutLeaf (KeyOf)

namespace BtreePc

/-- Where a `Get` can be. -/
def reading : BtreePc → Bool
  | idle | loadRoot | descend _ | scan .. | follow .. | done _ => true
  | _ => false

end BtreePc

namespace BTreeIndex

/-- Only thread `w` changes the index: new pairs in, present pairs out. -/
def OneWriter (w : Nat) (S : Key → Prop) (s : BTreeIndex) : BtreeAction → Prop
  | .invoke t (.insert columns tid) =>
      t = w ∧ Admissible S columns tid ∧ buildKey columns tid ∉ s.present
  | .invoke t (.delete columns tid) => t = w ∧ buildKey columns tid ∈ s.present
  | .invoke _ (.get columns) => S columns
  | _ => True

instance (w : Nat) (S : Key → Prop) [DecidablePred S] (s : BTreeIndex) (a : BtreeAction) :
    Decidable (OneWriter w S s a) :=
  match a with
  | .invoke t (.insert columns tid) =>
      inferInstanceAs
        (Decidable (t = w ∧ Admissible S columns tid ∧ buildKey columns tid ∉ s.present))
  | .invoke t (.delete columns tid) =>
      inferInstanceAs (Decidable (t = w ∧ buildKey columns tid ∈ s.present))
  | .invoke _ (.get columns) => inferInstanceAs (Decidable (S columns))
  | .run _ | .ret _ => inferInstanceAs (Decidable True)

/-- The way of `w` from the root, and what is on the root's level. -/
def PathOk (s : BTreeIndex) (w : Nat) : Prop :=
  ∃ rpg, s.pages s.rootId = some rpg ∧
    match (s.threads w).pc with
    | .root _ _ pid _ => pid = s.rootId
    | .reloadRoot .. | .redescend .. => False
    | .descend pid | .inter _ _ pid => rpg.node.high = none ∧
        ∃ pg, s.pages pid = some pg ∧ pg.level + (s.threads w).stack.length = rpg.level
    | .leaf _ => rpg.node.high = none ∧ (s.threads w).stack.length = rpg.level
    | _ => rpg.node.high = none

/-- The keys that belong in the leaves. -/
def current (s : BTreeIndex) (w : Nat) : List Key :=
  if (s.threads w).pc.searching ∨ (s.threads w).pc = .idle then s.present
  else (s.threads w).op.presentAtReturn s.present

section Path

variable {s s' : BTreeIndex} {low low' : Nat → Key} {S : Key → Prop} {w pid : Nat} {pg : BtreePage}

/-- Without a right neighbour the root is alone on its level. -/
theorem Shape.root_alone (h : Shape s low S) {rpg : BtreePage} (hr : s.pages s.rootId = some rpg)
    (hhigh : rpg.node.high = none) (hp : s.pages pid = some pg) (hlevel : pg.level = rpg.level) :
    pid = s.rootId := by
  obtain ⟨n, hn, hlow, -⟩ := h.inv.root
  have hroot : low s.rootId = ⊥ := hlow
  rcases (bot_le : ⊥ ≤ low pid).lt_or_eq with hlt | heq
  · obtain ⟨b, hb, -⟩ := h.inv.disjoint s.rootId pid _ _ (tree_nodes hr) (tree_nodes hp) hlevel.symm
      (hroot ▸ hlt)
    rw [hhigh] at hb
    exact absurd hb (by simp)
  · exact h.inv.inj pid s.rootId _ _ (tree_nodes hp) (tree_nodes hr) hlevel (by rw [hroot, ← heq])

theorem pathOk_init : PathOk init w := ⟨.initHeader 0 1, rfl, rfl⟩

/-- A step that leaves pages, root and `w` alone. -/
theorem PathOk.congr (h : PathOk s w) (hpages : s'.pages = s.pages) (hroot : s'.rootId = s.rootId)
    (hw : s'.threads w = s.threads w) : PathOk s' w := by
  unfold PathOk at h ⊢
  rwa [hpages, hroot, hw]

/-- A page is put back with its level and fence, and the call is done. -/
theorem PathOk.put (h : ∃ rpg, s.pages s.rootId = some rpg ∧ rpg.node.high = none)
    (hp : s.pages pid = some pg) {pg' : BtreePage} (hhigh : pg'.node.high = pg.node.high)
    (stack : List Nat) : PathOk ((s.setPage pid pg').moved w stack (.done [])) w := by
  obtain ⟨rpg, hr, hnone⟩ := h
  unfold PathOk
  rw [moved_threads]
  by_cases hroot : s.rootId = pid
  · subst hroot
    obtain rfl := Option.some.inj (hr.symm.trans hp)
    exact ⟨pg', by simp [moved, setPage], hhigh.trans hnone⟩
  · exact ⟨rpg, by simp [moved, setPage, hroot, hr], hnone⟩

/-- A page of the path is split. -/
theorem PathOk.split (h : Shape s low S) {rpg : BtreePage} (hr : s.pages s.rootId = some rpg)
    (hnone : rpg.node.high = none) (hp : s.pages pid = some pg)
    (hlevel : pg.level + (s.threads w).stack.length = rpg.level)
    (hstack : StackOk s.tree low (s.threads w).stack pg.level (low pid)) {l r : BtreePage}
    (hl : l.level = pg.level) {sentinel : Key} :
    PathOk ((s.splitPages pid l r).afterSplit w l.level sentinel pid s.nextPid) w := by
  obtain ⟨hpl, -, hother⟩ := splitPages_pages (l := l) (r := r) hp h
  rcases afterSplit_eq (s.splitPages pid l r) w l.level pid s.nextPid sentinel with
    ⟨pc, heq, hnil, rfl⟩ | ⟨top, rest, hcons, heq⟩
  · -- an empty stack: the page was the root
    have hnil' : (s.threads w).stack = [] := hnil
    have hroot : pid = s.rootId :=
      h.root_alone hr hnone hp (by rw [hnil'] at hlevel; simpa using hlevel)
    rw [heq]
    unfold PathOk
    rw [moved_threads]
    refine ⟨l, ?_, hroot⟩
    show (s.splitPages pid l r).pages s.rootId = some l
    rw [← hroot]
    exact hpl
  · have hcons' : (s.threads w).stack = top :: rest := hcons
    rw [hcons'] at hlevel hstack
    rw [List.length_cons] at hlevel
    have hne : s.rootId ≠ pid := by
      rintro rfl
      obtain rfl := Option.some.inj (hr.symm.trans hp)
      omega
    have hnew : s.rootId ≠ s.nextPid := by
      have := (h.pid _ rpg hr).2
      omega
    obtain ⟨⟨n, hn, hnlevel, -⟩, -⟩ := hstack
    obtain ⟨tpg, ht, rfl⟩ := pages_of_tree hn
    have htlevel : tpg.level = pg.level + 1 := hnlevel
    have htp : top ≠ pid := by
      rintro rfl
      obtain rfl := Option.some.inj (ht.symm.trans hp)
      omega
    have htn : top ≠ s.nextPid := by
      have := (h.pid _ tpg ht).2
      omega
    rw [heq]
    unfold PathOk
    rw [moved_threads]
    refine ⟨rpg, (hother _ hne hnew).trans hr, hnone, tpg, (hother _ htp htn).trans ht, ?_⟩
    show tpg.level + rest.length = rpg.level
    omega

/-- A step of `w` keeps its way. -/
theorem PathOk.run (h : Shape s low S) (hok : PcOk s.tree low S (s.threads w)) (hpath : PathOk s w)
    (hcall : ∀ columns tid, (s.threads w).op = .insert columns tid →
      (s.threads w).pc.searching = true → KeyOf S (buildKey columns tid))
    (hs : s.runThread w (s.threads w).pc = .ok s') : PathOk s' w := by
  obtain ⟨rpg, hr, hpath⟩ := hpath
  cases hpc : (s.threads w).pc with
  | idle => simp [hpc, runThread] at hs
  | done => simp [hpc, runThread] at hs
  | loadRoot =>
      rw [hpc] at hpath hs
      simp only [PcOk, hpc] at hok
      obtain rfl := Except.ok.inj hs
      rw [goto_eq]
      unfold PathOk
      rw [moved_threads, hok]
      exact ⟨rpg, hr, hpath, rpg, hr, rfl⟩
  | descend pid =>
      rw [hpc] at hpath hs
      simp only [PcOk, hpc] at hok
      obtain ⟨hnone, pg, hp, hlevel⟩ := hpath
      obtain ⟨level, hat, -⟩ := hok
      obtain ⟨pg', hp', hcase⟩ := descendStep_cases hs
      obtain rfl := Option.some.inj (hp.symm.trans hp')
      rcases hcase with ⟨-, columns, -, rfl⟩ | ⟨hzero, -, rfl⟩ | ⟨hpos, hsplit, rfl⟩ |
        ⟨hpos, child, hchild, rfl⟩ <;> unfold PathOk <;> rw [moved_threads]
      · exact ⟨rpg, hr, hnone⟩
      · exact ⟨rpg, hr, hnone, by show (s.threads w).stack.length = _; omega⟩
      · obtain ⟨hat', -⟩ := h.at_right hp (BtreePage.layout_inter hpos) hsplit
        obtain ⟨qpg, hq, hqlevel, -⟩ := page_of_at hat'
        exact ⟨rpg, hr, hnone, qpg, hq, by show _ + (s.threads w).stack.length = _; omega⟩
      · obtain ⟨hat', -⟩ := h.at_child hp hpos hchild
        obtain ⟨qpg, hq, hqlevel, -⟩ := page_of_at hat'
        exact ⟨rpg, hr, hnone, qpg, hq, by
          show _ + (pid :: (s.threads w).stack).length = _
          rw [List.length_cons]
          omega⟩
  | leaf pid =>
      rw [hpc] at hpath
      simp only [PcOk, hpc] at hok
      obtain ⟨hnone, hlength⟩ := hpath
      obtain ⟨hat, hstack⟩ := hok
      obtain ⟨pg, hp, hzero, -⟩ := page_of_at hat
      have hlay := BtreePage.layout_leaf hzero
      have hpage := h.page pid pg hp
      have hsorted := h.sorted hp
      simp only [hpc, runThread] at hs
      cases hop : (s.threads w).op with
      | insert columns tid =>
          simp only [hop] at hs
          have hkey := hcall columns tid hop (by rw [hpc]; rfl)
          obtain ⟨pg₁, hp₁, hcase⟩ := insertStep_cases hs
          obtain rfl := Option.some.inj (hp.symm.trans hp₁)
          rcases hcase with ⟨hsplit, rfl⟩ | ⟨-, -, pg', hins, rfl⟩ |
            ⟨-, -, -, l, r, sentinel, hsplits, rfl⟩
          · unfold PathOk
            rw [moved_threads]
            exact ⟨rpg, hr, hnone, hlength⟩
          · obtain ⟨-, hins⟩ := BtreeVarlenLayoutLeaf.insert_ok (hlay ▸ hpage) (hlay ▸ hsorted) hins
            rw [← hlay] at hins
            exact PathOk.put ⟨rpg, hr, hnone⟩ hp (by rw [node_eq hins.level hins.high hins.rlink]) _
          · have hsp := Layout.split_ok (hlay ▸ hpage) (hlay ▸ hsorted) (length_lt_of_keyOf hkey)
              (by decide) hsplits
            exact PathOk.split h hr hnone hp (by rw [hlength, hzero, Nat.zero_add])
              (by rw [hzero]; exact hstack) hsp.level
      | delete columns tid =>
          simp only [hop] at hs
          obtain ⟨pg₁, hp₁, hcase⟩ := deleteStep_cases hs
          obtain rfl := Option.some.inj (hp.symm.trans hp₁)
          rcases hcase with ⟨hsplit, rfl⟩ | ⟨-, pg', hdel, rfl⟩
          · unfold PathOk
            rw [moved_threads]
            exact ⟨rpg, hr, hnone, hlength⟩
          · obtain ⟨-, -, -, hhigh, hlvl, hrlink, -⟩ := BtreeVarlenLayoutLeaf.delete_ok
              (hlay ▸ hpage) (hlay ▸ hsorted) hdel
            exact PathOk.put ⟨rpg, hr, hnone⟩ hp (by rw [node_eq hlvl (hlay ▸ hhigh) hrlink]) _
      | get columns => simp [hop] at hs
  | root level sentinel pid newPid =>
      rw [hpc] at hpath hs
      simp only [PcOk, hpc] at hok
      obtain ⟨-, -, ⟨m, hm, -, -⟩, hkey, hpos⟩ := hok
      obtain ⟨mpg, hmp, rfl⟩ := pages_of_tree hm
      rcases rootStep_cases hs with ⟨rfl, -, root, hcreate, rfl⟩ | ⟨hne, rfl⟩
      · obtain ⟨-, -, hhigh, hlevel, -⟩ := BtreeVarlenLayoutIntermediate.createRoot_ok
          (length_lt_of_keyOf hkey) (by rintro rfl; exact absurd hpos (lt_irrefl _))
          (h.lt_undefined hr).2 (h.lt_undefined hmp).2 hcreate
        unfold PathOk
        rw [moved_threads]
        refine ⟨root, by simp [moved, rooted, setPage], ?_⟩
        show root.layout.high root = none
        rw [BtreePage.layout_inter (by omega)]
        exact hhigh
      · exact absurd hpath.symm hne
  | reloadRoot dropLevel sentinel newPid =>
      rw [hpc] at hpath
      exact hpath.elim
  | redescend dropLevel sentinel newPid pid level =>
      rw [hpc] at hpath
      exact hpath.elim
  | inter sentinel value pid =>
      rw [hpc] at hpath hs
      simp only [PcOk, hpc] at hok
      obtain ⟨hnone, pg, hp, hlength⟩ := hpath
      obtain ⟨hkey, l, ⟨m, hm, -, -⟩, hat, hstack⟩ := hok
      obtain ⟨pg₀, hp₀, hlevel, -⟩ := page_of_at hat
      obtain rfl := Option.some.inj (hp.symm.trans hp₀)
      have hpos : pg.level ≠ 0 := by omega
      have hlay := BtreePage.layout_inter hpos
      have hpage := h.page pid pg hp
      have hsorted := h.sorted hp
      have hvalue : value < 2 ^ 32 := by
        obtain ⟨vpg, hvp, -⟩ := pages_of_tree hm
        exact (h.lt_undefined hvp).2
      obtain ⟨pg₁, hp₁, hcase⟩ := interStep_cases hs
      obtain rfl := Option.some.inj (hp.symm.trans hp₁)
      rcases hcase with ⟨hsplit, rfl⟩ | ⟨-, -, pg', hins, rfl⟩ |
        ⟨-, -, -, lpg, r, sentinel', hsplits, rfl⟩
      · obtain ⟨hat', -⟩ := h.at_right hp hlay hsplit
        obtain ⟨qpg, hq, hqlevel, -⟩ := page_of_at hat'
        unfold PathOk
        rw [moved_threads]
        exact ⟨rpg, hr, hnone, qpg, hq, by show _ + (s.threads w).stack.length = _; omega⟩
      · have hins :=
          BtreeVarlenLayoutIntermediate.insert_ok (hlay ▸ hpage) (hlay ▸ hsorted) hvalue hins
        rw [← hlay] at hins
        exact PathOk.put ⟨rpg, hr, hnone⟩ hp (by rw [node_eq hins.level hins.high hins.rlink]) _
      · have hsp := Layout.split_ok (hlay ▸ hpage) (hlay ▸ hsorted) (length_lt_of_keyOf hkey) hvalue
          hsplits
        exact PathOk.split h hr hnone hp hlength (by rw [hlevel]; exact hstack) hsp.level
  | scan pid results =>
      rw [hpc] at hpath hs
      obtain ⟨pg, -, hcase⟩ := scanStep_cases hs
      rcases hcase with ⟨-, rfl⟩ | ⟨-, -, rfl⟩ | ⟨-, -, rfl⟩ <;> unfold PathOk <;>
        rw [moved_threads] <;> exact ⟨rpg, hr, hpath⟩
  | follow pid results =>
      rw [hpc] at hpath hs
      obtain ⟨pg, -, hcase⟩ := followStep_cases hs
      rcases hcase with ⟨-, rfl⟩ | ⟨-, rfl⟩ <;> unfold PathOk <;> rw [moved_threads] <;>
        exact ⟨rpg, hr, hpath⟩

end Path

/-! ## What is in the leaves -/

/-- The pages, the way of `w`, the lookups of the others, and the keys. -/
structure WriterInv (s : BTreeIndex) (w : Nat) (low : Nat → Key) (S : Key → Prop) : Prop where
  sound : Sound s low S
  path : PathOk s w
  readers : ∀ t, t ≠ w → (s.threads t).pc = .idle ∨ ∃ columns, (s.threads t).op = .get columns
  reading : ∀ t columns, (s.threads t).op = .get columns →
    (s.threads t).pc.reading = true ∧ ((s.threads t).pc ≠ .idle → S columns)
  nodup : s.present.Nodup
  keys : ∀ k, s.tree.HasKey k ↔ k ∈ s.current w
  inserting : ∀ columns tid, (s.threads w).op = .insert columns tid → (s.threads w).pc ≠ .idle →
    KeyOf S (buildKey columns tid) ∧ buildKey columns tid ∉ s.present
  deleting : ∀ columns tid, (s.threads w).op = .delete columns tid → (s.threads w).pc ≠ .idle →
    buildKey columns tid ∈ s.present

section Writer

variable {s s' : BTreeIndex} {low low' : Nat → Key} {S : Key → Prop} {w t : Nat}

/-- A step of a `Get` moves its thread only. -/
theorem reading_step {columns : Key} (hop : (s.threads t).op = .get columns)
    (hread : (s.threads t).pc.reading = true) (hs : s.runThread t (s.threads t).pc = .ok s') :
    ∃ stack pc, s' = s.moved t stack pc ∧ pc.reading = true ∧ pc ≠ .idle := by
  cases hpc : (s.threads t).pc with
  | idle => simp [hpc, runThread] at hs
  | done => simp [hpc, runThread] at hs
  | loadRoot =>
      rw [hpc] at hs
      obtain rfl := Except.ok.inj hs
      exact ⟨_, _, goto_eq _, rfl, by simp⟩
  | descend pid =>
      rw [hpc] at hs
      obtain ⟨pg, -, hcase⟩ := descendStep_cases hs
      rcases hcase with ⟨-, _, -, rfl⟩ | ⟨-, hnot, -⟩ | ⟨-, -, rfl⟩ | ⟨-, child, -, rfl⟩
      · exact ⟨_, _, rfl, rfl, by simp⟩
      · exact absurd hop (hnot columns)
      · exact ⟨_, _, rfl, rfl, by simp⟩
      · exact ⟨_, _, rfl, rfl, by simp⟩
  | scan pid results =>
      rw [hpc] at hs
      obtain ⟨pg, -, hcase⟩ := scanStep_cases hs
      rcases hcase with ⟨-, rfl⟩ | ⟨-, -, rfl⟩ | ⟨-, -, rfl⟩ <;> exact ⟨_, _, rfl, rfl, by simp⟩
  | follow pid results =>
      rw [hpc] at hs
      obtain ⟨pg, -, hcase⟩ := followStep_cases hs
      rcases hcase with ⟨-, rfl⟩ | ⟨-, rfl⟩ <;> exact ⟨_, _, rfl, rfl, by simp⟩
  | leaf pid => simp [hpc, BtreePc.reading] at hread
  | root level sentinel pid newPid => simp [hpc, BtreePc.reading] at hread
  | reloadRoot dropLevel sentinel newPid => simp [hpc, BtreePc.reading] at hread
  | redescend dropLevel sentinel newPid pid level => simp [hpc, BtreePc.reading] at hread
  | inter sentinel value pid => simp [hpc, BtreePc.reading] at hread

/-- The call of an insert or delete is under way until it returns. -/
theorem writing_step (hop : ∀ columns, (s.threads t).op ≠ .get columns)
    (hs : s.runThread t (s.threads t).pc = .ok s') : (s'.threads t).pc ≠ .idle := by
  have hsplit : ∀ (s₁ : BTreeIndex) level pid newPid sentinel,
      ((s₁.afterSplit t level sentinel pid newPid).threads t).pc ≠ .idle := by
    intro s₁ level pid newPid sentinel
    rcases afterSplit_eq s₁ t level pid newPid sentinel with ⟨pc, heq, -, rfl⟩ | ⟨top,
      rest, -, heq⟩ <;>
      rw [heq, moved_threads] <;> simp
  cases hpc : (s.threads t).pc with
  | idle => simp [hpc, runThread] at hs
  | done => simp [hpc, runThread] at hs
  | loadRoot =>
      rw [hpc] at hs
      obtain rfl := Except.ok.inj hs
      rw [goto_eq, moved_threads]
      simp
  | descend pid =>
      rw [hpc] at hs
      obtain ⟨pg, -, hcase⟩ := descendStep_cases hs
      rcases hcase with ⟨-, _, -, rfl⟩ | ⟨-, -, rfl⟩ | ⟨-, -, rfl⟩ | ⟨-, child, -, rfl⟩ <;>
        rw [moved_threads] <;> simp
  | leaf pid =>
      simp only [hpc, runThread] at hs
      cases hop' : (s.threads t).op with
      | insert columns tid =>
          simp only [hop'] at hs
          obtain ⟨pg, -, hcase⟩ := insertStep_cases hs
          rcases hcase with ⟨-, rfl⟩ | ⟨-, -, pg', -, rfl⟩ | ⟨-, -, -, l, r, sentinel, -, rfl⟩
          · rw [moved_threads]; simp
          · rw [moved_threads]; simp
          · exact hsplit _ _ _ _ _
      | delete columns tid =>
          simp only [hop'] at hs
          obtain ⟨pg, -, hcase⟩ := deleteStep_cases hs
          rcases hcase with ⟨-, rfl⟩ | ⟨-, pg', -, rfl⟩ <;> rw [moved_threads] <;> simp
      | get columns => exact absurd hop' (hop columns)
  | root level sentinel pid newPid =>
      rw [hpc] at hs
      rcases rootStep_cases hs with ⟨-, -, root, -, rfl⟩ | ⟨-, rfl⟩ <;> rw [moved_threads] <;> simp
  | reloadRoot dropLevel sentinel newPid =>
      rw [hpc] at hs
      obtain ⟨pg, -, rfl⟩ := reloadRootStep_cases hs
      rw [moved_threads]
      simp
  | redescend dropLevel sentinel newPid pid level =>
      rw [hpc] at hs
      obtain ⟨pg, -, -, hcase⟩ := redescendStep_cases hs
      rcases hcase with ⟨-, rfl⟩ | ⟨-, -, rfl⟩ | ⟨-, child, -, rfl⟩ <;> rw [moved_threads] <;> simp
  | inter sentinel value pid =>
      rw [hpc] at hs
      obtain ⟨pg, -, hcase⟩ := interStep_cases hs
      rcases hcase with ⟨-, rfl⟩ | ⟨-, -, pg', -, rfl⟩ | ⟨-, -, -, l, r, sentinel', -, rfl⟩
      · rw [moved_threads]; simp
      · rw [moved_threads]; simp
      · exact hsplit _ _ _ _ _
  | scan pid results =>
      rw [hpc] at hs
      obtain ⟨pg, -, hcase⟩ := scanStep_cases hs
      rcases hcase with ⟨-, rfl⟩ | ⟨-, -, rfl⟩ | ⟨-, -, rfl⟩ <;> rw [moved_threads] <;> simp
  | follow pid results =>
      rw [hpc] at hs
      obtain ⟨pg, -, hcase⟩ := followStep_cases hs
      rcases hcase with ⟨-, rfl⟩ | ⟨-, rfl⟩ <;> rw [moved_threads] <;> simp

theorem writerInv_init (w : Nat) : WriterInv init w (fun _ => []) S where
  sound := sound_init
  path := pathOk_init
  readers _ _ := .inl rfl
  reading _ _ _ := ⟨rfl, fun hne => absurd rfl hne⟩
  nodup := .nil
  keys k := by
    refine ⟨fun hk => ?_, fun hk => ?_⟩
    · exact absurd (ledger_init (S := S) |>.begun k hk) (by simp [init])
    · exact absurd hk (by simp [current, init, BtreePc.searching])
  inserting _ _ _ hne := absurd rfl hne
  deleting _ _ _ hne := absurd rfl hne

theorem WriterInv.callOk (h : WriterInv s w low S) (t : Nat) : CallOk s S t := by
  intro columns tid hop hsearch
  have hne : (s.threads t).pc ≠ .idle := fun hidle => by simp [hidle, BtreePc.searching] at hsearch
  by_cases ht : t = w
  · subst ht
    obtain ⟨hkey, hnew⟩ := h.inserting columns tid hop hne
    refine ⟨hkey, fun hk => hnew ?_⟩
    have hin := (h.keys _).mp hk
    rwa [current, if_pos (.inl hsearch)] at hin
  · rcases h.readers t ht with hidle | ⟨columns', hget⟩
    · exact absurd hidle hne
    · simp [hop] at hget

theorem WriterInv.rootAbove (h : WriterInv s w low S) (t : Nat) : s.RootAbove (.run t) := by
  simp only [RootAbove]
  split
  · rename_i dropLevel sentinel newPid hpc
    by_cases ht : t = w
    · subst ht
      obtain ⟨rpg, -, hpath⟩ := h.path
      rw [hpc] at hpath
      exact hpath.elim
    · rcases h.readers t ht with hidle | ⟨columns, hget⟩
      · simp [hpc] at hidle
      · have := (h.reading t columns hget).1
        simp [hpc, BtreePc.reading] at this
  · trivial

/-- The pending key goes in or out with the step of `w` that places it. -/
theorem WriterInv.keys_run (h : WriterInv s w low S) (he : Effect s s' low low' S w)
    (hne : (s.threads w).pc ≠ .idle) (hne' : (s'.threads w).pc ≠ .idle) :
    ∀ k, s'.tree.HasKey k ↔ k ∈ s'.current w := by
  intro k
  have hcur' : s'.current w = if (s'.threads w).pc.searching then s.present
      else (s.threads w).op.presentAtReturn s.present := by
    simp [current, he.op, he.present, hne']
  have hcur : s.current w = if (s.threads w).pc.searching then s.present
      else (s.threads w).op.presentAtReturn s.present := by
    simp [current, hne]
  have hkey := h.keys k
  rw [hcur] at hkey
  rw [hcur']
  rcases he.keys with ⟨hsearch | ⟨p, hget⟩, hsame⟩ | ⟨hsearch, hplaced, hkeys⟩
  · rw [hsame k, hkey, hsearch]
  · rw [hsame k, hkey, hget]
    simp [IndexOp.presentAtReturn]
  · rw [if_pos hsearch] at hkey
    rw [hplaced, if_neg (by simp)]
    cases hop : (s.threads w).op with
    | insert columns tid =>
        rw [hop] at hkeys
        rw [hkeys k, hkey, IndexOp.presentAtReturn, List.mem_cons, or_comm]
    | delete columns tid =>
        rw [hop] at hkeys
        rw [hkeys k, hkey, IndexOp.presentAtReturn, h.nodup.mem_erase_iff, and_comm]
    | get columns =>
        rw [hop] at hkeys
        exact hkeys.elim

theorem runThread_of_step (hs : s.step (.run t) = some s') :
    s.runThread t (s.threads t).pc = .ok s' := by
  simp only [step] at hs
  split at hs
  · rename_i s₁ hrun
    rw [hrun, Option.some.inj hs]
  · exact absurd hs (by simp)

/-- What a step of a thread has done. -/
theorem WriterInv.of_effect (h : WriterInv s w low S) (he : Effect s s' low low' S t)
    (hs : s.step (.run t) = some s') : WriterInv s' w low' S := by
  have hne := running_of_step hs
  have hrun := runThread_of_step hs
  have hreading : ∀ u columns, (s'.threads u).op = .get columns →
      (s'.threads u).pc.reading = true ∧ ((s'.threads u).pc ≠ .idle → S columns) := by
    intro u columns hop
    by_cases hu : u = t
    · subst hu
      rw [he.op] at hop
      obtain ⟨hread, hcol⟩ := h.reading u columns hop
      obtain ⟨stack, pc, rfl, hread', -⟩ := reading_step hop hread hrun
      rw [moved_threads]
      exact ⟨hread', fun _ => hcol hne⟩
    · rw [he.others u hu] at hop ⊢
      exact h.reading u columns hop
  refine ⟨h.sound.of_effect he, ?_, fun u hu => ?_, hreading, he.present ▸ h.nodup, ?_, ?_, ?_⟩
  · by_cases ht : t = w
    · subst ht
      exact PathOk.run h.sound.shape (h.sound.pcOk t) h.path
        (fun columns tid hop hsearch => (h.callOk t columns tid hop hsearch).1) hrun
    · -- the others read
      rcases h.readers t ht with hidle | ⟨columns, hget⟩
      · exact absurd hidle hne
      · obtain ⟨stack, pc, rfl, -⟩ := reading_step hget (h.reading t columns hget).1 hrun
        exact h.path.congr rfl rfl (moved_others _ _ (Ne.symm ht))
  · by_cases hut : u = t
    · subst hut
      rcases h.readers u hu with hidle | hget
      · exact absurd hidle hne
      · rw [he.op]
        exact .inr hget
    · rw [he.others u hut]
      exact h.readers u hu
  · by_cases ht : t = w
    · subst ht
      refine h.keys_run he hne ?_
      cases hop : (s.threads t).op with
      | get columns =>
          obtain ⟨stack, pc, rfl, -, hpc⟩ := reading_step hop (h.reading t columns hop).1 hrun
          rwa [moved_threads]
      | insert columns tid => exact writing_step (by simp [hop]) hrun
      | delete columns tid => exact writing_step (by simp [hop]) hrun
    · rcases h.readers t ht with hidle | ⟨columns, hget⟩
      · exact absurd hidle hne
      · obtain ⟨stack, pc, rfl, -⟩ := reading_step hget (h.reading t columns hget).1 hrun
        intro k
        have hcur : (s.moved t stack pc).current w = s.current w := by
          simp only [current, moved_others _ _ (Ne.symm ht)]
          rfl
        rw [hcur]
        exact h.keys k
  · by_cases ht : t = w
    · subst ht
      rw [he.op, he.present]
      exact fun columns tid hop _ => h.inserting columns tid hop hne
    · rw [he.others w (Ne.symm ht), he.present]
      exact h.inserting
  · by_cases ht : t = w
    · subst ht
      rw [he.op, he.present]
      exact fun columns tid hop _ => h.deleting columns tid hop hne
    · rw [he.others w (Ne.symm ht), he.present]
      exact h.deleting

/-- A step of a thread. -/
theorem WriterInv.run (h : WriterInv s w low S) (hs : s.step (.run t) = some s') :
    ∃ low', Effect s s' low low' S t ∧ WriterInv s' w low' S := by
  obtain ⟨low', he, -⟩ := h.sound.run (h.callOk t) (h.rootAbove t) hs
  exact ⟨low', he, h.of_effect he hs⟩

/-- A step of a `Get` leaves the fences alone. -/
theorem Sound.effect_read (h : Sound s low S) {columns : Key}
    (hop : (s.threads t).op = .get columns)
    (hread : (s.threads t).pc.reading = true) (hs : s.step (.run t) = some s') :
    Effect s s' low low S t := by
  have hshape := h.shape
  have hok := h.pcOk t
  have hrun := runThread_of_step hs
  cases hpc : (s.threads t).pc with
  | idle => exact absurd hpc (running_of_step hs)
  | done => simp [hpc, runThread] at hrun
  | loadRoot =>
      rw [hpc] at hrun
      obtain rfl := Except.ok.inj hrun
      simp only [PcOk, hpc] at hok
      obtain ⟨n, hn, -⟩ := hshape.inv.root
      refine effect_move hshape ⟨n.level, hshape.inv.at_root _ hn, ?_⟩ (.inr ⟨columns, hop⟩)
      rw [hok]
      trivial
  | descend pid => exact effect_descend hshape hpc hok (by simpa [hpc, runThread] using hrun)
  | scan pid results => exact effect_scan hshape hpc hok (by simpa [hpc, runThread] using hrun)
  | follow pid results => exact effect_follow hshape hpc hok (by simpa [hpc, runThread] using hrun)
  | leaf pid => simp [hpc, BtreePc.reading] at hread
  | root level sentinel pid newPid => simp [hpc, BtreePc.reading] at hread
  | reloadRoot dropLevel sentinel newPid => simp [hpc, BtreePc.reading] at hread
  | redescend dropLevel sentinel newPid pid level => simp [hpc, BtreePc.reading] at hread
  | inter sentinel value pid => simp [hpc, BtreePc.reading] at hread

theorem WriterInv.effect_read (h : WriterInv s w low S) {columns : Key}
    (hop : (s.threads t).op = .get columns) (hs : s.step (.run t) = some s') :
    Effect s s' low low S t :=
  h.sound.effect_read hop (h.reading t columns hop).1 hs

/-- A call. -/
theorem WriterInv.invoke (h : WriterInv s w low S) {op : IndexOp}
    (hc : OneWriter w S s (.invoke t op))
    (hs : s.step (.invoke t op) = some s') : WriterInv s' w low S := by
  have hi := invoked_of_step hs
  have hpath : PathOk s' w := by
    by_cases ht : t = w
    · subst ht
      obtain ⟨rpg, hr, hpath⟩ := h.path
      rw [hi.idle] at hpath
      unfold PathOk
      rw [hi.pages, hi.rootId, hi.thread]
      exact ⟨rpg, hr, hpath⟩
    · exact h.path.congr hi.pages hi.rootId (hi.others w (Ne.symm ht))
  have hcur : s'.current w = s.current w := by
    by_cases ht : t = w
    · subst ht
      simp [current, hi.thread, hi.idle, hi.present, BtreePc.searching]
    · simp only [current, hi.others w (Ne.symm ht), hi.present]
  refine ⟨h.sound.invoke hs, hpath, fun u hu => ?_, fun u columns hop => ?_, hi.present ▸ h.nodup,
    fun k => by rw [hi.tree, hcur]; exact h.keys k, fun columns tid hop _ => ?_,
    fun columns tid hop _ => ?_⟩
  · by_cases hut : u = t
    · subst hut
      rw [hi.thread]
      cases op with
      | get columns => exact .inr ⟨columns, rfl⟩
      | insert columns tid => exact absurd hc.1 hu
      | delete columns tid => exact absurd hc.1 hu
    · rw [hi.others u hut]
      exact h.readers u hu
  · by_cases hut : u = t
    · subst hut
      rw [hi.thread] at hop ⊢
      subst hop
      exact ⟨rfl, fun _ => hc⟩
    · rw [hi.others u hut] at hop ⊢
      exact h.reading u columns hop
  · rw [hi.present]
    by_cases ht : t = w
    · subst ht
      rw [hi.thread] at hop
      subst hop
      exact ⟨hc.2.1.keyOf, hc.2.2⟩
    · rename_i hne
      rw [hi.others w (Ne.symm ht)] at hop hne
      exact h.inserting columns tid hop hne
  · rw [hi.present]
    by_cases ht : t = w
    · subst ht
      rw [hi.thread] at hop
      subst hop
      exact hc.2
    · rename_i hne
      rw [hi.others w (Ne.symm ht)] at hop hne
      exact h.deleting columns tid hop hne

/-- A return. -/
theorem WriterInv.ret (h : WriterInv s w low S) (hs : s.step (.ret t) = some s') :
    WriterInv s' w low S := by
  have hr := returned_of_step hs
  obtain ⟨results, hdone⟩ := hr.done
  have hidle : (s'.threads t).pc = .idle := by rw [hr.thread]
  have hpath : PathOk s' w := by
    by_cases ht : t = w
    · subst ht
      obtain ⟨rpg, hrp, hpath⟩ := h.path
      rw [hdone] at hpath
      unfold PathOk
      rw [hr.pages, hr.rootId, hr.thread]
      exact ⟨rpg, hrp, hpath⟩
    · exact h.path.congr hr.pages hr.rootId (hr.others w (Ne.symm ht))
  have hpresent : t ≠ w → s'.present = s.present := by
    intro ht
    rcases h.readers t ht with hpc | ⟨columns, hget⟩
    · simp [hdone] at hpc
    · rw [hr.present, hget]
      rfl
  have hcur : s'.current w = s.current w := by
    by_cases ht : t = w
    · subst ht
      simp [current, hidle, hdone, hr.present, BtreePc.searching]
    · simp only [current, hr.others w (Ne.symm ht), hpresent ht]
  refine ⟨h.sound.ret hs, hpath, fun u hu => ?_, fun u columns hop => ?_, ?_,
    fun k => by rw [hr.tree, hcur]; exact h.keys k, fun columns tid hop hne => ?_,
    fun columns tid hop hne => ?_⟩
  · by_cases hut : u = t
    · subst hut
      exact .inl hidle
    · rw [hr.others u hut]
      exact h.readers u hu
  · by_cases hut : u = t
    · subst hut
      rw [hidle]
      exact ⟨rfl, fun hne => absurd rfl hne⟩
    · rw [hr.others u hut] at hop ⊢
      exact h.reading u columns hop
  · by_cases ht : t = w
    · subst ht
      have hne : (s.threads t).pc ≠ .idle := by rw [hdone]; simp
      rw [hr.present]
      cases hop : (s.threads t).op with
      | insert columns tid => exact h.nodup.cons (h.inserting columns tid hop hne).2
      | delete columns tid => exact h.nodup.erase _
      | get columns => exact h.nodup
    · rw [hpresent ht]
      exact h.nodup
  · by_cases ht : t = w
    · subst ht
      exact absurd hidle hne
    · rw [hr.others w (Ne.symm ht)] at hop hne
      rw [hpresent ht]
      exact h.inserting columns tid hop hne
  · by_cases ht : t = w
    · subst ht
      exact absurd hidle hne
    · rw [hr.others w (Ne.symm ht)] at hop hne
      rw [hpresent ht]
      exact h.deleting columns tid hop hne

theorem writerInv_reachable (hs : btreeSystem.ReachableBy (OneWriter w S) s) :
    ∃ low, WriterInv s w low S := by
  refine hs.invariant (P := fun s => ∃ low, WriterInv s w low S) ?_ ?_
  · rintro s₀ rfl
    exact ⟨_, writerInv_init w⟩
  · rintro s a s' ⟨low, h⟩ hc hst
    cases a with
    | invoke t op => exact ⟨low, h.invoke hc hst⟩
    | run t =>
        obtain ⟨low', -, h'⟩ := h.run hst
        exact ⟨low', h'⟩
    | ret t => exact ⟨low, h.ret hst⟩

end Writer

end BTreeIndex

end Db7
