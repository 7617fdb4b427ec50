import Db7.Index.BTree
import Db7.Index.PageOps

/-!
# The shape of the index

`Shape s low S`: the pages denote a B-link tree with low fences `low`, the heap
of each page is in order, and the keys are made from columns in `S`. The three
changes of a page section keep it: a tuple goes in (`Shape.insert`), a page is
split (`Shape.split`), a leaf tuple goes out (`Shape.delete`), and the `root_mtx_`
section puts a root on top (`Shape.newRoot`).
-/

namespace Db7

open Lib Lib.BLink Function KeyNormEncoder
open BtreeVarlenLayoutLeaf (KeyOf)

/-! ## Tuples in intervals -/

namespace Layout

variable {lay : Layout} {pg pg' left l r : BtreePage} {key s lo : Key} {hi : Option Key}
  {child level newPid n : Nat}

theorem Inserted.mem (h : Inserted lay pg pg' key child) (e : Key × Nat) :
    e ∈ lay.entries pg' ↔ e ∈ lay.entries pg ∨ e = (key, lay.childOf child) := by
  obtain ⟨as, bs, hold, hnew, -, -⟩ := h.entries
  rw [hold, hnew]
  simp only [List.mem_append, List.mem_cons]
  constructor
  · rintro (h | rfl | h)
    · exact .inl (.inl h)
    · exact .inr rfl
    · exact .inl (.inr h)
  · rintro ((h | h) | rfl)
    · exact .inl h
    · exact .inr (.inr h)
    · exact .inr (.inl rfl)

theorem Inserted.within (h : Inserted lay pg pg' key child) (hw : Within lo hi (lay.entries pg))
    (hlo : lo ≤ key) (hcov : ∀ b ∈ hi, key < b) (hne : ∀ e ∈ lay.entries pg, e.1 ≠ key) :
    Within lo hi (lay.entries pg') := by
  obtain ⟨as, bs, hold, hnew, has, hbs⟩ := h.entries
  rw [hold] at hw hne
  rw [hnew]
  refine hw.insert hlo hcov has fun b hb => lt_of_le_of_ne (hbs b hb) fun heq => ?_
  exact hne b (List.mem_append_right _ hb) heq.symm

/-- The first separator stays the first. -/
theorem Inserted.leftmost (h : Inserted lay pg pg' key child)
    (hl : LinkTree.Leftmost lo level (lay.entries pg)) (hlo : lo ≤ key)
    (hne : ∀ e ∈ lay.entries pg, e.1 ≠ key) : LinkTree.Leftmost lo level (lay.entries pg') := by
  intro hlevel
  obtain ⟨c, es, hcons⟩ := hl hlevel
  obtain ⟨as, bs, hold, hnew, -, hbs⟩ := h.entries
  cases as with
  | nil =>
      rw [List.nil_append] at hold
      have hb := hbs (lo, c) (by rw [← hold, hcons]; simp)
      exact absurd (le_antisymm hlo hb) (hne (lo, c) (by rw [hcons]; simp))
  | cons a as =>
      rw [hcons, List.cons_append] at hold
      obtain ⟨rfl, -⟩ := List.cons.inj hold
      exact ⟨c, _, hnew⟩

theorem Inserted.children {t : LinkTree Key} {low : Nat → Key} (h : Inserted lay pg pg' key child)
    (hc : LinkTree.Children t low level (lay.entries pg))
    (hnew : 0 < level → ∃ m, t.nodes (lay.childOf child) = some m ∧ m.level + 1 = level ∧
      low (lay.childOf child) = key) : LinkTree.Children t low level (lay.entries pg') := by
  intro hlevel e he
  rcases (h.mem e).mp he with hold | rfl
  · exact hc hlevel e hold
  · exact hnew hlevel

/-- What the halves of a page hold. -/
structure HalvesWithin (lay : Layout) (left l r : BtreePage) (s lo : Key) (hi : Option Key)
    (level : Nat) : Prop where
  lo_lt : lo < s
  lt_hi : ∀ b ∈ hi, s < b
  left : Within lo (some s) (lay.entries l)
  right : Within s hi (lay.entries r)
  leftmostLeft : LinkTree.Leftmost lo level (lay.entries l)
  leftmostRight : LinkTree.Leftmost s level (lay.entries r)

theorem Halved.within (h : Halved lay left l r level newPid n s)
    (hw : Within lo hi (lay.entries left))
    (hl : LinkTree.Leftmost lo left.level (lay.entries left)) :
    HalvesWithin lay left l r s lo hi left.level := by
  obtain ⟨-, hn, hlt⟩ := findSplitPoint_ok h.point
  obtain ⟨c, rest, hcons⟩ := h.sentinel
  have hr := h.rightHalf.entries
  have hlen : n < (lay.entries left).length := by rwa [length_entries]
  have hsplit : lay.entries left = (lay.entries left).take n ++ (s, c) :: rest := by
    rw [← hcons, hr, List.take_append_drop]
  have hpos : 0 < (lay.entries left).length := by omega
  obtain ⟨e, es, hhead⟩ : ∃ e es, (lay.entries left).take n = e :: es := by
    refine List.exists_cons_of_ne_nil fun hnil => ?_
    have := congrArg List.length hnil
    rw [List.length_take, List.length_nil] at this
    omega
  have hpw := hw.sorted
  rw [hsplit] at hpw
  obtain ⟨hpl, hpr, hlr⟩ := List.pairwise_append.mp hpw
  have hs : (s, c) ∈ lay.entries left := by rw [hsplit]; simp
  have he : e ∈ lay.entries left := by rw [hsplit, hhead]; simp
  refine ⟨(hw.lower e he).trans_lt (hlr e (by rw [hhead]; simp) _ List.mem_cons_self),
    fun b hb => hw.upper b hb _ hs, ⟨?_, ?_, ?_⟩, ⟨?_, ?_, ?_⟩, ?_, ?_⟩
  · rw [h.leftHalf.entries]; exact hpl
  · rw [h.leftHalf.entries]
    exact fun x hx => hw.lower x (List.mem_of_mem_take hx)
  · rw [h.leftHalf.entries]
    rintro b hb x hx
    obtain rfl := Option.some.inj hb
    exact hlr x hx _ List.mem_cons_self
  · rw [hcons]; exact hpr
  · rw [hcons]
    intro x hx
    rcases List.mem_cons.mp hx with rfl | hx
    · exact le_rfl
    · exact ((List.pairwise_cons.mp hpr).1 x hx).le
  · rw [hr]
    exact fun b hb x hx => hw.upper b hb x (List.mem_of_mem_drop hx)
  · intro hlevel
    obtain ⟨c', es', hcons'⟩ := hl hlevel
    rw [h.leftHalf.entries, hcons']
    obtain ⟨m, rfl⟩ : ∃ m, n = m + 1 := ⟨n - 1, by omega⟩
    exact ⟨c', es'.take m, rfl⟩
  · exact fun _ => ⟨c, rest, hcons⟩

theorem Halved.mem (h : Halved lay left l r level newPid n s) (e : Key × Nat) :
    e ∈ lay.entries left ↔ e ∈ lay.entries l ∨ e ∈ lay.entries r := by
  rw [h.leftHalf.entries, h.rightHalf.entries, ← List.mem_append, List.take_append_drop]

/-- The halves with the pending key. -/
structure SplitView (lay : Layout) (left l r : BtreePage) (newPid : Nat) (s lo key : Key)
    (hi : Option Key) (level child : Nat) : Prop where
  within : HalvesWithin lay left l r s lo hi left.level
  mem : ∀ e, (e ∈ lay.entries l ∨ e ∈ lay.entries r) ↔
    e ∈ lay.entries left ∨ e = (key, lay.childOf child)
  sentinel : ∃ c, (s, c) ∈ lay.entries left
  pageInvLeft : PageInv lay l
  pageInvRight : PageInv lay r
  highLeft : lay.high l = some s
  highRight : lay.high r = lay.high left
  levelLeft : l.level = left.level
  levelRight : r.level = level
  rlinkLeft : l.rlink = newPid
  rlinkRight : r.rlink = left.rlink
  fresh : lay = inter → ∀ e ∈ lay.entries left, e.1 ≠ key

theorem Splits.view (h : Splits lay left l r level newPid s key child)
    (hw : Within lo hi (lay.entries left)) (hl : LinkTree.Leftmost lo left.level (lay.entries left))
    (hlo : lo ≤ key) (hcov : ∀ b ∈ hi, key < b)
    (hne : lay = leaf → ∀ e ∈ lay.entries left, e.1 ≠ key) :
    SplitView lay left l r newPid s lo key hi level child := by
  obtain ⟨l₀, r₀, n, hh, hcase⟩ := h.halved
  have hv := hh.within hw hl
  have hsentinel : ∃ c, (s, c) ∈ lay.entries left := by
    obtain ⟨c, rest, hcons⟩ := hh.sentinel
    exact ⟨c, (hh.mem _).mpr (.inr (by rw [hcons]; simp))⟩
  rcases hcase with ⟨hle, rfl, hins⟩ | ⟨hlt, rfl, hins⟩
  · -- into the right half
    have hne' : ∀ e ∈ lay.entries r₀, e.1 ≠ key := by
      cases lay with
      | leaf => exact fun e he => hne rfl e ((hh.mem e).mpr (.inr he))
      | inter => exact hins.fresh rfl
    refine ⟨⟨hv.lo_lt, hv.lt_hi, hv.left, hins.within hv.right hle hcov hne', hv.leftmostLeft,
        hins.leftmost hv.leftmostRight hle hne'⟩, fun e => ?_, hsentinel, hh.leftHalf.pageInv,
      hins.pageInv, hh.leftHalf.high, hins.high.trans hh.rightHalf.high, hh.leftHalf.level,
      hins.level.trans hh.rightHalf.level, hh.leftHalf.rlink, hins.rlink.trans hh.rlink,
        fun hlay e he => ?_⟩
    · rw [hins.mem, hh.mem, or_assoc]
    · rcases (hh.mem e).mp he with hel | her
      · exact ((hv.left.upper s rfl e hel).trans_le hle).ne
      · exact hins.fresh hlay e her
  · -- into the left half
    have hne' : ∀ e ∈ lay.entries l₀, e.1 ≠ key := by
      cases lay with
      | leaf => exact fun e he => hne rfl e ((hh.mem e).mpr (.inl he))
      | inter => exact hins.fresh rfl
    refine ⟨⟨hv.lo_lt, hv.lt_hi, hins.within hv.left hlo (fun b hb => by
        obtain rfl := Option.some.inj hb; exact hlt) hne', hv.right,
        hins.leftmost hv.leftmostLeft hlo hne', hv.leftmostRight⟩, fun e => ?_,
          hsentinel, hins.pageInv,
      hh.rightHalf.pageInv, hins.high.trans hh.leftHalf.high, hh.rightHalf.high,
      hins.level.trans hh.leftHalf.level, hh.rightHalf.level,
        hins.rlink.trans hh.leftHalf.rlink, hh.rlink,
      fun hlay e he => ?_⟩
    · rw [hins.mem, hh.mem]
      constructor
      · rintro ((h | h) | h)
        · exact .inl (.inl h)
        · exact .inr h
        · exact .inl (.inr h)
      · rintro ((h | h) | h)
        · exact .inl (.inl h)
        · exact .inr h
        · exact .inl (.inr h)
    · rcases (hh.mem e).mp he with hel | her
      · exact hins.fresh hlay e hel
      · exact (hlt.trans_le (hv.right.lower e her)).ne'

end Layout

/-! ## The invariant -/

namespace BTreeIndex

/-- What the pages denote. -/
def tree (s : BTreeIndex) : LinkTree Key := ⟨fun p => (s.pages p).map BtreePage.node, s.rootId⟩

theorem tree_setPage (s : BTreeIndex) (pid : Nat) (pg : BtreePage) :
    (s.setPage pid pg).tree = s.tree.set pid pg.node := by
  simp only [tree, setPage, LinkTree.set, LinkTree.mk.injEq, and_true]
  funext p
  by_cases hp : p = pid
  · simp [hp]
  · simp [hp]

theorem tree_nodes {s : BTreeIndex} {p : Nat} {pg : BtreePage} (h : s.pages p = some pg) :
    s.tree.nodes p = some pg.node := by
  simp [tree, h]

theorem pages_of_tree {s : BTreeIndex} {p : Nat} {n : Node Key} (h : s.tree.nodes p = some n) :
    ∃ pg, s.pages p = some pg ∧ pg.node = n := by
  simpa [tree] using h

/-- The keys of one page: full keys, and on inner pages the empty separator. -/
structure PageKeys (S : Key → Prop) (pg : BtreePage) : Prop where
  leaf : pg.level = 0 → ∀ e ∈ pg.node.entries, KeyOf S e.1
  inter : ∀ e ∈ pg.node.entries, e.1 = [] ∨ KeyOf S e.1
  high : ∀ h ∈ pg.node.high, KeyOf S h

/-- The pages make a B-link tree with columns in `S`. -/
structure Shape (s : BTreeIndex) (low : Nat → Key) (S : Key → Prop) : Prop where
  inv : s.tree.Inv low
  page : ∀ p pg, s.pages p = some pg → Layout.PageInv pg.layout pg
  keys : ∀ p pg, s.pages p = some pg → PageKeys S pg
  pid : ∀ p pg, s.pages p = some pg → 0 < p ∧ p < s.nextPid
  limit : s.nextPid ≤ reserveLimit

section Shape

variable {s : BTreeIndex} {low : Nat → Key} {S : Key → Prop} {pid : Nat} {pg pg' : BtreePage}

theorem Shape.nodeInv (h : Shape s low S) (hp : s.pages pid = some pg) :
    LinkTree.NodeInv s.tree low pid pg.node := h.inv.node pid _ (tree_nodes hp)

theorem Shape.sorted (h : Shape s low S) (hp : s.pages pid = some pg) :
    Layout.Sorted pg.layout pg := (h.nodeInv hp).within.sorted

theorem Shape.lt_undefined (h : Shape s low S) (hp : s.pages pid = some pg) :
    pid ≠ undefinedPage ∧ pid < 2 ^ 32 := by
  have := (h.pid pid pg hp).2
  have hl := h.limit
  have : reserveLimit = 80000 := rfl
  have : undefinedPage = 4294967295 := rfl
  constructor <;> omega

theorem Shape.getNode (h : Shape s low S) (hp : s.pages pid = some pg) :
    s.getNode pid = .ok pg := by
  refine bind_ok.mpr ⟨(), assertThat_ok.mpr (by simpa using (h.lt_undefined hp).1), ?_⟩
  rw [hp]

theorem getNode_ok (h : s.getNode pid = .ok pg) : s.pages pid = some pg := by
  obtain ⟨_, -, h⟩ := bind_ok.mp h
  cases hp : s.pages pid with
  | none => simp [hp] at h
  | some pg' =>
      rw [hp] at h
      rw [Except.ok.inj h]

theorem shape_init : Shape init (fun _ => []) S := by
  have hpages : ∀ p pg, init.pages p = some pg → p = 1 ∧ pg = .initHeader 0 1 := by
    intro p pg h
    by_cases hp : p = 1
    · subst hp
      simp only [init, update_self, Option.some.injEq] at h
      exact ⟨rfl, h.symm⟩
    · simp [init, hp] at h
  have hnode : (BtreePage.initHeader 0 1).node = ⟨0, [], none, undefinedPage⟩ := rfl
  have hnodes : ∀ p n, init.tree.nodes p = some n → p = 1 ∧ n = ⟨0, [], none, undefinedPage⟩ := by
    intro p n h
    obtain ⟨pg, hpg, rfl⟩ := pages_of_tree h
    obtain ⟨rfl, rfl⟩ := hpages p pg hpg
    exact ⟨rfl, hnode⟩
  refine ⟨⟨fun p n h => ?_, ⟨⟨0, [], none, undefinedPage⟩, rfl, rfl, fun p m h => ?_⟩,
    fun p q n m hp hq _ hlt => ?_, fun p q n m hp hq _ _ => ?_⟩, fun p pg h => ?_, fun p pg h => ?_,
    fun p pg h => ?_, ?_⟩
  · obtain ⟨rfl, rfl⟩ := hnodes p n h
    exact ⟨.nil _ _, by simp, by simp, fun h => absurd h (lt_irrefl 0),
      fun h => absurd h (lt_irrefl 0)⟩
  · rw [(hnodes p m h).2]
  · exact absurd hlt (lt_irrefl _)
  · rw [(hnodes p n hp).1, (hnodes q m hq).1]
  · obtain ⟨-, rfl⟩ := hpages p pg h
    exact Layout.pageInv_initHeader 0 1
  · obtain ⟨-, rfl⟩ := hpages p pg h
    exact ⟨by simp [hnode], by simp [hnode], by simp [hnode]⟩
  · obtain ⟨rfl, -⟩ := hpages p pg h
    show 0 < 1 ∧ 1 < 2
    omega
  · show 2 ≤ 80000
    omega

/-- The invariant reads the pages, the root and the page counter only. -/
theorem Shape.congr {s' : BTreeIndex} (h : Shape s low S) (hpages : s'.pages = s.pages)
    (hroot : s'.rootId = s.rootId) (hnext : s.nextPid ≤ s'.nextPid)
    (hlimit : s'.nextPid ≤ reserveLimit) :
    Shape s' low S := by
  have htree : s'.tree = s.tree := by rw [tree, tree, hpages, hroot]
  refine ⟨htree ▸ h.inv, hpages ▸ h.page, hpages ▸ h.keys, fun p pg hp => ?_, hlimit⟩
  have := h.pid p pg (hpages ▸ hp)
  omega

/-- Replacing a page. -/
theorem Shape.setPage (h : Shape s low S) (hp : s.pages pid = some pg)
    (hinv : (s.tree.set pid pg'.node).Inv low) (hpage : Layout.PageInv pg'.layout pg')
    (hkeys : PageKeys S pg') : Shape (s.setPage pid pg') low S := by
  refine ⟨by rw [tree_setPage]; exact hinv, fun p q hq => ?_, fun p q hq => ?_,
    fun p q hq => ?_, h.limit⟩
  · by_cases hpp : p = pid
    · subst hpp
      obtain rfl : pg' = q := by simpa [BTreeIndex.setPage] using hq
      exact hpage
    · exact h.page p q (by simpa [BTreeIndex.setPage, hpp] using hq)
  · by_cases hpp : p = pid
    · subst hpp
      obtain rfl : pg' = q := by simpa [BTreeIndex.setPage] using hq
      exact hkeys
    · exact h.keys p q (by simpa [BTreeIndex.setPage, hpp] using hq)
  · by_cases hpp : p = pid
    · subst hpp
      exact h.pid p pg hp
    · exact h.pid p q (by simpa [BTreeIndex.setPage, hpp] using hq)

theorem layout_of_level {pg pg' : BtreePage} (h : pg'.level = pg.level) :
    pg'.layout = pg.layout := by
  simp only [BtreePage.layout, h]

/-- A page whose level and fence stay, as a node. -/
theorem node_eq {pg pg' : BtreePage} (hlevel : pg'.level = pg.level)
    (hhigh : pg.layout.high pg' = pg.layout.high pg) (hrlink : pg'.rlink = pg.rlink) :
    pg'.node = { pg.node with entries := pg.layout.entries pg' } := by
  simp only [BtreePage.node, layout_of_level hlevel, hlevel, hhigh, hrlink]

/-- A tuple goes into the page that covers its key. -/
theorem Shape.insert (h : Shape s low S) (hp : s.pages pid = some pg) {key : Key} {child : Nat}
    (hins : Layout.Inserted pg.layout pg pg' key child) (hlow : low pid ≤ key)
    (hcov : ∀ b ∈ pg.node.high, key < b) (hkey : KeyOf S key)
    (hne : pg.level = 0 → ∀ e ∈ pg.node.entries, e.1 ≠ key)
    (hchild : 0 < pg.level → ∃ m, s.tree.nodes child = some m ∧ m.level + 1 = pg.level ∧
      low child = key) :
    Shape (s.setPage pid pg') low S ∧ LinkTree.Grows s.tree (s.setPage pid pg').tree low low ∧
      ∀ k, (s.setPage pid pg').tree.HasKey k ↔ s.tree.HasKey k ∨ pg.level = 0 ∧ k = key := by
  have hn := h.nodeInv hp
  have hnode := node_eq hins.level hins.high hins.rlink
  have hne' : ∀ e ∈ pg.layout.entries pg, e.1 ≠ key := by
    by_cases hlevel : pg.level = 0
    · exact hne hlevel
    · exact hins.fresh (BtreePage.layout_inter hlevel)
  have hinv : (s.tree.set pid pg'.node).Inv low := by
    rw [hnode]
    refine h.inv.setEntries (tree_nodes hp) (hins.within hn.within hlow hcov hne')
      (hins.leftmost hn.leftmost hlow hne') (hins.children hn.children fun hlevel => ?_)
    obtain ⟨m, hm⟩ := hchild hlevel
    have hlevel' : pg.level ≠ 0 := (Nat.pos_iff_ne_zero.mp hlevel)
    rw [show pg.layout.childOf child = child by rw [BtreePage.layout_inter hlevel']; rfl]
    exact ⟨m, hm⟩
  have hmem : ∀ e, e ∈ pg'.node.entries ↔
      e ∈ pg.node.entries ∨ e = (key, pg.layout.childOf child) := by
    intro e
    rw [hnode]
    exact hins.mem e
  refine ⟨h.setPage hp hinv ?_ ?_, ?_, fun k => ?_⟩
  · rw [layout_of_level hins.level]
    exact hins.pageInv
  · have hold := h.keys pid pg hp
    refine ⟨fun hlevel e he => ?_, fun e he => ?_, fun b hb => ?_⟩
    · rcases (hmem e).mp he with he | rfl
      · exact hold.leaf (hins.level ▸ hlevel) e he
      · exact hkey
    · rcases (hmem e).mp he with he | rfl
      · exact hold.inter e he
      · exact .inr hkey
    · rw [hnode] at hb
      exact hold.high b hb
  · rw [tree_setPage, hnode]
    exact LinkTree.grows_set (tree_nodes hp) rfl (.refl _)
  · rw [tree_setPage]
    constructor
    · rintro ⟨p, n, hpn, hlevel, e, he, rfl⟩
      by_cases hpp : p = pid
      · subst hpp
        rw [LinkTree.set_nodes_self] at hpn
        obtain rfl := Option.some.inj hpn
        have hlevel' : pg.level = 0 := by rw [← hins.level]; exact hlevel
        rcases (hmem e).mp he with he | rfl
        · exact .inl ⟨p, _, tree_nodes hp, hlevel', e, he, rfl⟩
        · exact .inr ⟨hlevel', rfl⟩
      · rw [LinkTree.set_nodes_of_ne _ _ _ hpp] at hpn
        exact .inl ⟨p, n, hpn, hlevel, e, he, rfl⟩
    · rintro (⟨p, n, hpn, hlevel, e, he, rfl⟩ | ⟨hlevel, rfl⟩)
      · by_cases hpp : p = pid
        · subst hpp
          obtain rfl := Option.some.inj ((tree_nodes hp).symm.trans hpn)
          exact ⟨p, _, LinkTree.set_nodes_self .., by rw [hnode]; exact hlevel, e,
            (hmem e).mpr (.inl he), rfl⟩
        · exact ⟨p, n, by rw [LinkTree.set_nodes_of_ne _ _ _ hpp, hpn], hlevel, e, he, rfl⟩
      · exact ⟨pid, _, LinkTree.set_nodes_self .., by rw [hnode]; exact hlevel, _,
          (hmem _).mpr (.inr rfl), rfl⟩

/-- A tuple goes out of a leaf. -/
theorem Shape.delete (h : Shape s low S) (hp : s.pages pid = some pg) (hlevel : pg.level = 0)
    {key : Key} (hdel : BtreeVarlenLayoutLeaf.delete pg key = .ok pg') (hlow : low pid ≤ key)
    (hcov : ∀ b ∈ pg.node.high, key < b) :
    Shape (s.setPage pid pg') low S ∧ LinkTree.Grows s.tree (s.setPage pid pg').tree low low ∧
      ∀ k, (s.setPage pid pg').tree.HasKey k ↔ s.tree.HasKey k ∧ k ≠ key := by
  have hlay := BtreePage.layout_leaf hlevel
  have hn := h.nodeInv hp
  obtain ⟨hpage, hsub, hmem, hhigh, hlvl, hrlink, -⟩ := BtreeVarlenLayoutLeaf.delete_ok
    (hlay ▸ h.page pid pg hp) (hlay ▸ h.sorted hp) hdel
  have hnode := node_eq hlvl (hlay ▸ hhigh) hrlink
  have hsub' : (pg.layout.entries pg').Sublist pg.node.entries := by
    show List.Sublist _ (pg.layout.entries pg)
    rw [hlay]
    exact hsub
  have hmem' : ∀ e, e ∈ pg'.node.entries ↔ e ∈ pg.node.entries ∧ e.1 ≠ key := by
    intro e
    rw [hnode]
    show e ∈ pg.layout.entries pg' ↔ e ∈ pg.layout.entries pg ∧ _
    rw [hlay]
    exact hmem e
  have hnot : ¬ 0 < pg.level := by omega
  have hinv : (s.tree.set pid pg'.node).Inv low := by
    rw [hnode]
    exact h.inv.setEntries (tree_nodes hp) (hn.within.sublist hsub') (fun hl => absurd hl hnot)
      fun hl => absurd hl hnot
  refine ⟨h.setPage hp hinv ?_ ?_, ?_, fun k => ?_⟩
  · rw [layout_of_level hlvl, hlay]
    exact hpage
  · have hold := h.keys pid pg hp
    refine ⟨fun _ e he => hold.leaf hlevel e ((hmem' e).mp he).1,
      fun e he => hold.inter e ((hmem' e).mp he).1, fun b hb => ?_⟩
    rw [hnode] at hb
    exact hold.high b hb
  · rw [tree_setPage, hnode]
    exact LinkTree.grows_set (tree_nodes hp) rfl (.refl _)
  · rw [tree_setPage]
    constructor
    · rintro ⟨p, n, hpn, hlevel', e, he, rfl⟩
      by_cases hpp : p = pid
      · subst hpp
        rw [LinkTree.set_nodes_self] at hpn
        obtain rfl := Option.some.inj hpn
        obtain ⟨he, hne⟩ := (hmem' e).mp he
        exact ⟨⟨p, _, tree_nodes hp, hlevel, e, he, rfl⟩, hne⟩
      · rw [LinkTree.set_nodes_of_ne _ _ _ hpp] at hpn
        refine ⟨⟨p, n, hpn, hlevel', e, he, rfl⟩, fun heq => hpp ?_⟩
        -- the leaf that covers the key is the only one that can hold it
        have hw := (h.inv.node p n hpn).within
        have hle := hw.lower e he
        have hhi : Covers n e.1 := fun b hb => hw.upper b hb e he
        rw [heq] at hle hhi
        exact h.inv.cover_unique hpn (tree_nodes hp) (hlevel'.trans hlevel.symm) hle hhi hlow hcov
    · rintro ⟨⟨p, n, hpn, hlevel', e, he, rfl⟩, hne⟩
      by_cases hpp : p = pid
      · subst hpp
        obtain rfl := Option.some.inj ((tree_nodes hp).symm.trans hpn)
        exact ⟨p, _, LinkTree.set_nodes_self .., by rw [hnode]; exact hlevel', e,
          (hmem' e).mpr ⟨he, hne⟩, rfl⟩
      · exact ⟨p, n, by rw [LinkTree.set_nodes_of_ne _ _ _ hpp, hpn], hlevel', e, he, rfl⟩

/-- A fresh page id is not in use. -/
theorem Shape.fresh (h : Shape s low S) : s.pages s.nextPid = none := by
  cases hp : s.pages s.nextPid with
  | none => rfl
  | some pg => exact absurd (h.pid _ pg hp).2 (lt_irrefl _)

theorem tree_nodes_none {p : Nat} (h : s.pages p = none) : s.tree.nodes p = none := by
  simp [tree, h]

/-- The pages after a split. -/
def splitPages (s : BTreeIndex) (pid : Nat) (l r : BtreePage) : BTreeIndex :=
  ({ s with nextPid := s.nextPid + 1 }.setPage pid l).setPage s.nextPid r

theorem splitPages_pages {l r : BtreePage} (hp : s.pages pid = some pg) (h : Shape s low S) :
    (s.splitPages pid l r).pages pid = some l ∧ (s.splitPages pid l r).pages s.nextPid = some r ∧
      ∀ p, p ≠ pid → p ≠ s.nextPid → (s.splitPages pid l r).pages p = s.pages p := by
  have hne : pid ≠ s.nextPid := by
    have := (h.pid pid pg hp).2
    omega
  refine ⟨by simp [splitPages, BTreeIndex.setPage, hne], by simp [splitPages, BTreeIndex.setPage],
    fun p hpp hpn => by simp [splitPages, BTreeIndex.setPage, hpp, hpn]⟩

/-- A page is split, and a tuple goes into the half that covers its key. -/
theorem Shape.split (h : Shape s low S) (hp : s.pages pid = some pg) {l r : BtreePage}
    {key sentinel : Key} {child : Nat}
    (hv : Layout.SplitView pg.layout pg l r s.nextPid sentinel (low pid) key pg.node.high
      pg.level child)
    (hnext : s.nextPid < reserveLimit) (hkey : KeyOf S key)
    (hchild : 0 < pg.level → ∃ m, s.tree.nodes child = some m ∧ m.level + 1 = pg.level ∧
      low child = key) :
    Shape (s.splitPages pid l r) (update low s.nextPid sentinel) S ∧
      LinkTree.Grows s.tree (s.splitPages pid l r).tree low (update low s.nextPid sentinel) ∧
      (∀ k, (s.splitPages pid l r).tree.HasKey k ↔ s.tree.HasKey k ∨ pg.level = 0 ∧ k = key) ∧
      low pid < sentinel ∧ KeyOf S sentinel := by
  have hn := h.nodeInv hp
  obtain ⟨hpl, hpr, hother⟩ := splitPages_pages (l := l) (r := r) hp h
  have hnodel : l.node =
      { pg.node with
        entries := pg.layout.entries l
        high := some sentinel
        rlink := s.nextPid } := by
    simp only [BtreePage.node, layout_of_level hv.levelLeft, hv.levelLeft,
      hv.highLeft, hv.rlinkLeft]
  have hnoder : r.node = { pg.node with entries := pg.layout.entries r } := by
    simp only [BtreePage.node, layout_of_level hv.levelRight, hv.levelRight,
      hv.highRight, hv.rlinkRight]
  have htree : (s.splitPages pid l r).tree = (s.tree.set pid l.node).set s.nextPid r.node := by
    rw [splitPages, tree_setPage, tree_setPage]
    rfl
  have hchildren : ∀ es, (∀ e ∈ es, e ∈ pg.layout.entries l ∨ e ∈ pg.layout.entries r) →
      LinkTree.Children s.tree low pg.level es := by
    intro es hes hlevel e he
    rcases (hv.mem e).mp (hes e he) with hold | rfl
    · exact hn.children hlevel e hold
    · have hlevel' : pg.level ≠ 0 := Nat.pos_iff_ne_zero.mp hlevel
      rw [show pg.layout.childOf child = child by rw [BtreePage.layout_inter hlevel']; rfl]
      exact hchild hlevel
  have hinv := h.inv.split (tree_nodes hp) (tree_nodes_none h.fresh) hv.within.lo_lt hv.within.lt_hi
    hv.within.left hv.within.right hv.within.leftmostLeft hv.within.leftmostRight
    (hchildren _ fun _ he => .inl he) (hchildren _ fun _ he => .inr he)
  have hgrows := LinkTree.grows_split (tree_nodes hp) (tree_nodes_none h.fresh) low
    hv.within.lt_hi (pg.layout.entries l) (pg.layout.entries r)
  rw [← hnodel, ← hnoder, ← htree] at hinv hgrows
  have hold := h.keys pid pg hp
  have hne : sentinel ≠ [] := by
    rintro rfl
    exact not_lt_bot hv.within.lo_lt
  have hsentinel : KeyOf S sentinel := by
    obtain ⟨c, hc⟩ := hv.sentinel
    exact (hold.inter _ hc).resolve_left hne
  have hmem : ∀ e, e ∈ l.node.entries ∨ e ∈ r.node.entries ↔
      e ∈ pg.node.entries ∨ e = (key, pg.layout.childOf child) := by
    intro e
    rw [hnodel, hnoder]
    exact hv.mem e
  have hkeys :
      ∀ q, q.level = pg.level → (∀ e ∈ q.node.entries, e ∈ l.node.entries ∨ e ∈ r.node.entries) →
      (∀ b ∈ q.node.high, b = sentinel ∨ b ∈ pg.node.high) → PageKeys S q := by
    intro q hlevel hq hhigh
    refine ⟨fun hl e he => ?_, fun e he => ?_, fun b hb => ?_⟩
    · rcases (hmem e).mp (hq e he) with he | rfl
      · exact hold.leaf (by omega) e he
      · exact hkey
    · rcases (hmem e).mp (hq e he) with he | rfl
      · exact hold.inter e he
      · exact .inr hkey
    · rcases hhigh b hb with rfl | hb
      · exact hsentinel
      · exact hold.high b hb
  have hcases : ∀ p q, (s.splitPages pid l r).pages p = some q →
      p = pid ∧ q = l ∨ p = s.nextPid ∧ q = r ∨ s.pages p = some q := by
    intro p q hq
    by_cases hpp : p = pid
    · subst hpp
      exact .inl ⟨rfl, (Option.some.inj (hpl.symm.trans hq)).symm⟩
    · by_cases hpn : p = s.nextPid
      · subst hpn
        exact .inr (.inl ⟨rfl, (Option.some.inj (hpr.symm.trans hq)).symm⟩)
      · exact .inr (.inr (by rw [← hother p hpp hpn, hq]))
  refine ⟨⟨hinv, fun p q hq => ?_, fun p q hq => ?_, fun p q hq => ?_, hnext⟩, hgrows, fun k => ?_,
    hv.within.lo_lt, hsentinel⟩
  · rcases hcases p q hq with ⟨-, rfl⟩ | ⟨-, rfl⟩ | hq
    · rw [layout_of_level hv.levelLeft]; exact hv.pageInvLeft
    · rw [layout_of_level hv.levelRight]; exact hv.pageInvRight
    · exact h.page p q hq
  · rcases hcases p q hq with ⟨-, rfl⟩ | ⟨-, rfl⟩ | hq
    · refine hkeys q hv.levelLeft (fun _ he => .inl he) fun b hb => .inl ?_
      rw [hnodel] at hb
      exact (Option.some.inj hb).symm
    · refine hkeys q hv.levelRight (fun _ he => .inr he) fun b hb => .inr ?_
      rwa [hnoder] at hb
    · exact h.keys p q hq
  · rcases hcases p q hq with ⟨rfl, -⟩ | ⟨rfl, -⟩ | hq
    · have := h.pid p pg hp
      show 0 < p ∧ p < s.nextPid + 1
      omega
    · have := h.pid pid pg hp
      show 0 < s.nextPid ∧ s.nextPid < s.nextPid + 1
      omega
    · have := h.pid p q hq
      show 0 < p ∧ p < s.nextPid + 1
      omega
  · constructor
    · rintro ⟨p, n, hpn, hlevel, e, he, rfl⟩
      obtain ⟨q, hq, rfl⟩ := pages_of_tree hpn
      have hhalf : (q.level = pg.level ∧ (e ∈ l.node.entries ∨ e ∈ r.node.entries)) ∨
          s.pages p = some q := by
        rcases hcases p q hq with ⟨-, rfl⟩ | ⟨-, rfl⟩ | hq
        · exact .inl ⟨hv.levelLeft, .inl he⟩
        · exact .inl ⟨hv.levelRight, .inr he⟩
        · exact .inr hq
      rcases hhalf with ⟨hlvl, hlr⟩ | hq
      · have hlevel' : pg.level = 0 := hlvl.symm.trans hlevel
        rcases (hmem e).mp hlr with hin | rfl
        · exact .inl ⟨pid, _, tree_nodes hp, hlevel', e, hin, rfl⟩
        · exact .inr ⟨hlevel', rfl⟩
      · exact .inl ⟨p, _, tree_nodes hq, hlevel, e, he, rfl⟩
    · have hput : ∀ e, e ∈ l.node.entries ∨ e ∈ r.node.entries → pg.level = 0 →
          (s.splitPages pid l r).tree.HasKey e.1 := by
        rintro e (he | he) hlevel
        · exact ⟨pid, _, tree_nodes hpl, hv.levelLeft.trans hlevel, e, he, rfl⟩
        · exact ⟨s.nextPid, _, tree_nodes hpr, hv.levelRight.trans hlevel, e, he, rfl⟩
      rintro (⟨p, n, hpn, hlevel, e, he, rfl⟩ | ⟨hlevel, rfl⟩)
      · obtain ⟨q, hq, rfl⟩ := pages_of_tree hpn
        by_cases hpp : p = pid
        · subst hpp
          obtain rfl := Option.some.inj (hp.symm.trans hq)
          exact hput e ((hmem e).mpr (.inl he)) hlevel
        · have hpn' : p ≠ s.nextPid := by
            have := (h.pid p q hq).2
            omega
          exact ⟨p, _, tree_nodes ((hother p hpp hpn').trans hq), hlevel, e, he, rfl⟩
      · exact hput _ ((hmem _).mpr (.inr rfl)) hlevel

/-- The `root_mtx_` section puts a root over the old one and its right half. -/
theorem Shape.newRoot (h : Shape s low S) (hp : s.pages s.rootId = some pg) {root rpg : BtreePage}
    {sentinel : Key} {newPid : Nat} (hnext : s.nextPid < reserveLimit) (hkey : KeyOf S sentinel)
    (hnew : s.pages newPid = some rpg) (hlevel : rpg.level = pg.level)
    (hlow : low newPid = sentinel) (hpos : ⊥ < sentinel) (hpage : Layout.PageInv .inter root)
    (hentries : Layout.entries .inter root = [([], s.rootId), (sentinel, newPid)])
    (hhigh : Layout.high .inter root = none) (hrootLevel : root.level = pg.level + 1) :
    let s' : BTreeIndex :=
      { { s with nextPid := s.nextPid + 1 }.setPage s.nextPid root with rootId := s.nextPid }
    Shape s' (update low s.nextPid ⊥) S ∧
      LinkTree.Grows s.tree s'.tree low (update low s.nextPid ⊥) ∧
      ∀ k, s'.tree.HasKey k ↔ s.tree.HasKey k := by
  intro s'
  have hlay : root.layout = .inter := BtreePage.layout_inter (by omega)
  have hnode :
      root.node = ⟨pg.level + 1, [(⊥, s.rootId), (sentinel, newPid)], none, root.rlink⟩ := by
    simp only [BtreePage.node, hlay, hentries, hhigh, hrootLevel]
    rfl
  have htree : s'.tree = s.tree.withRoot s.nextPid pg.level sentinel newPid root.rlink := by
    have h1 : s'.tree.nodes = (s.tree.set s.nextPid root.node).nodes := by
      have := congrArg LinkTree.nodes (tree_setPage s s.nextPid root)
      exact this
    show (⟨s'.tree.nodes, s'.tree.root⟩ : LinkTree Key) = _
    rw [h1, hnode]
    rfl
  have hfresh := tree_nodes_none h.fresh
  have hinv := h.inv.newRoot (tree_nodes hp) hfresh root.rlink hpos (tree_nodes hnew)
    hlevel hlow
  have hgrows := LinkTree.grows_newRoot hfresh low pg.level sentinel newPid root.rlink
  rw [show pg.node.level = pg.level from rfl, ← htree] at hinv
  rw [← htree] at hgrows
  have hself : s'.pages s.nextPid = some root := by simp [s', BTreeIndex.setPage]
  have hother : ∀ p, p ≠ s.nextPid → s'.pages p = s.pages p := fun p hne => by
    simp [s', BTreeIndex.setPage, hne]
  have hcases : ∀ p q, s'.pages p = some q → p = s.nextPid ∧ q = root ∨ s.pages p = some q := by
    intro p q hq
    by_cases hpn : p = s.nextPid
    · subst hpn
      exact .inl ⟨rfl, (Option.some.inj (hself.symm.trans hq)).symm⟩
    · exact .inr (by rw [← hother p hpn, hq])
  refine ⟨⟨hinv, fun p q hq => ?_, fun p q hq => ?_, fun p q hq => ?_, hnext⟩, hgrows, fun k => ?_⟩
  · rcases hcases p q hq with ⟨-, rfl⟩ | hq
    · rw [hlay]; exact hpage
    · exact h.page p q hq
  · rcases hcases p q hq with ⟨-, rfl⟩ | hq
    · refine ⟨fun hl => by omega, fun e he => ?_, fun b hb => ?_⟩
      · rw [hnode] at he
        simp only [List.mem_cons, List.not_mem_nil, or_false] at he
        rcases he with rfl | rfl
        · exact .inl rfl
        · exact .inr hkey
      · rw [hnode] at hb
        simp at hb
    · exact h.keys p q hq
  · rcases hcases p q hq with ⟨rfl, -⟩ | hq
    · have := h.pid _ pg hp
      show 0 < s.nextPid ∧ s.nextPid < s.nextPid + 1
      omega
    · have := h.pid p q hq
      show 0 < p ∧ p < s.nextPid + 1
      omega
  · constructor
    · rintro ⟨p, n, hpn, hl, e, he, rfl⟩
      obtain ⟨q, hq, rfl⟩ := pages_of_tree hpn
      rcases hcases p q hq with ⟨-, rfl⟩ | hq
      · exact absurd (hrootLevel.symm.trans hl) (by omega)
      · exact ⟨p, _, tree_nodes hq, hl, e, he, rfl⟩
    · rintro ⟨p, n, hpn, hl, e, he, rfl⟩
      obtain ⟨q, hq, rfl⟩ := pages_of_tree hpn
      have hne : p ≠ s.nextPid := by
        have := (h.pid p q hq).2
        omega
      exact ⟨p, _, tree_nodes ((hother p hne).trans hq), hl, e, he, rfl⟩

end Shape

end BTreeIndex

end Db7
