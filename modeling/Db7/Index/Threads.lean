import Db7.Index.Sections

/-!
# What a thread relies on

A thread between two page sections holds no latch. What it knows is that the
pages it is about to visit start at or left of its key and are on the level it
takes them for (`PcOk`); both facts survive whatever other threads do, since
pages never change level and never move their low fence.

`effect_run` is the step lemma: a step of a thread keeps the shape and what the
thread relies on, and its key goes into, or out of, the leaves exactly in the
leaf section. It needs that a second descent finds a root above the level it
looks for (`RootAbove`); nothing in the code makes sure of that.
-/

namespace Db7

open Lib Lib.BLink Function KeyNormEncoder
open BtreeVarlenLayoutLeaf (KeyOf)

/-- The stack of a thread that works on `level` at a page that starts at `k`:
one page of each level above, each starting no further right. -/
def StackOk (t : LinkTree Key) (low : Nat → Key) : List Nat → Nat → Key → Prop
  | [], _, _ => True
  | p :: ps, level, k => t.At low p (level + 1) k ∧ StackOk t low ps (level + 1) (low p)

/-- Page `c` of `level` waits for its separator. -/
def Pending (t : LinkTree Key) (low : Nat → Key) (c level : Nat) (key : Key) : Prop :=
  ∃ m, t.nodes c = some m ∧ m.level = level ∧ low c = key

section Relies

variable {t t' : LinkTree Key} {low low' : Nat → Key}

theorem StackOk.mono {k k' : Key} (hk : k ≤ k') : ∀ {stack : List Nat} {level : Nat},
    StackOk t low stack level k → StackOk t low stack level k'
  | [], _, _ => trivial
  | _ :: _, _, ⟨⟨n, hn, hlevel, hlow⟩, hrest⟩ => ⟨⟨n, hn, hlevel, hlow.trans hk⟩, hrest⟩

theorem StackOk.grows (hg : LinkTree.Grows t t' low low') :
    ∀ {stack : List Nat} {level : Nat} {k : Key},
    StackOk t low stack level k → StackOk t' low' stack level k
  | [], _, _, _ => trivial
  | p :: _, _, _, ⟨hat, hrest⟩ => by
      obtain ⟨n, hn, -⟩ := id hat
      refine ⟨hat.grows hg, ?_⟩
      rw [hg.low p n hn]
      exact hrest.grows hg

theorem Pending.grows (hg : LinkTree.Grows t t' low low') {c level : Nat} {key : Key}
    (h : Pending t low c level key) : Pending t' low' c level key := by
  obtain ⟨m, hm, hlevel, hlow⟩ := h
  obtain ⟨m', hm', hlevel', -⟩ := hg.node c m hm
  exact ⟨m', hm', by omega, by rw [hg.low c m hm, hlow]⟩

end Relies

namespace BtreePc

/-- The call has not reached its leaf section. -/
def searching : BtreePc → Bool
  | loadRoot | descend _ | leaf _ => true
  | _ => false

end BtreePc

/-- What a thread relies on. -/
def PcOk (t : LinkTree Key) (low : Nat → Key) (S : Key → Prop) (th : BtreeThread) : Prop :=
  match th.pc with
  | .idle | .done _ => True
  | .loadRoot => th.stack = []
  | .descend pid => ∃ level, t.At low pid level th.op.key ∧ StackOk t low th.stack level (low pid)
  | .leaf pid => t.At low pid 0 th.op.key ∧ StackOk t low th.stack 0 (low pid)
  | .root level sentinel pid newPid =>
      th.stack = [] ∧ (∃ n, t.nodes pid = some n ∧ n.level = level) ∧
        Pending t low newPid level sentinel ∧ KeyOf S sentinel ∧ ⊥ < sentinel
  | .reloadRoot dropLevel sentinel newPid =>
      th.stack = [] ∧ KeyOf S sentinel ∧ ∃ level, dropLevel = level + 1 ∧
        Pending t low newPid level sentinel
  | .redescend dropLevel sentinel newPid pid level =>
      KeyOf S sentinel ∧ dropLevel ≤ level ∧ t.At low pid level sentinel ∧
        StackOk t low th.stack level (low pid) ∧
        ∃ l, dropLevel = l + 1 ∧ Pending t low newPid l sentinel
  | .inter sentinel value pid =>
      KeyOf S sentinel ∧ ∃ l, Pending t low value l sentinel ∧ t.At low pid (l + 1) sentinel ∧
        StackOk t low th.stack (l + 1) (low pid)
  | .scan pid _ => (∃ columns, th.op = .get columns) ∧ ∃ n, t.nodes pid = some n ∧ n.level = 0
  | .follow pid _ =>
      (∃ columns, th.op = .get columns) ∧
        ∃ n, t.nodes pid = some n ∧ n.level = 0 ∧ ∃ b, b ∈ n.high

theorem PcOk.grows {t t' : LinkTree Key} {low low' : Nat → Key} {S : Key → Prop}
    (hg : LinkTree.Grows t t' low low') {th : BtreeThread} (h : PcOk t low S th) :
    PcOk t' low' S th := by
  obtain ⟨op, stack, pc, before⟩ := th
  have hlow : ∀ {p level k}, t.At low p level k → low' p = low p := by
    rintro p level k ⟨n, hn, -⟩
    exact hg.low p n hn
  cases pc with
  | idle => trivial
  | done => trivial
  | loadRoot => exact h
  | descend pid =>
      obtain ⟨level, hat, hstack⟩ := h
      exact ⟨level, hat.grows hg, by rw [hlow hat]; exact hstack.grows hg⟩
  | leaf pid =>
      obtain ⟨hat, hstack⟩ := h
      exact ⟨hat.grows hg, by rw [hlow hat]; exact hstack.grows hg⟩
  | root level sentinel pid newPid =>
      obtain ⟨hstack, ⟨n, hn, hlevel⟩, hpending, hkey⟩ := h
      obtain ⟨n', hn', hlevel', -⟩ := hg.node pid n hn
      exact ⟨hstack, ⟨n', hn', by omega⟩, hpending.grows hg, hkey⟩
  | reloadRoot dropLevel sentinel newPid =>
      obtain ⟨hstack, hkey, level, hdrop, hpending⟩ := h
      exact ⟨hstack, hkey, level, hdrop, hpending.grows hg⟩
  | redescend dropLevel sentinel newPid pid level =>
      obtain ⟨hkey, hle, hat, hstack, l, hdrop, hpending⟩ := h
      exact ⟨hkey, hle, hat.grows hg, by rw [hlow hat]; exact hstack.grows hg, l, hdrop,
        hpending.grows hg⟩
  | inter sentinel value pid =>
      obtain ⟨hkey, l, hpending, hat, hstack⟩ := h
      exact ⟨hkey, l, hpending.grows hg, hat.grows hg, by rw [hlow hat]; exact hstack.grows hg⟩
  | scan pid results =>
      obtain ⟨hop, n, hn, hlevel⟩ := h
      obtain ⟨n', hn', hlevel', -⟩ := hg.node pid n hn
      exact ⟨hop, n', hn', by omega⟩
  | follow pid results =>
      obtain ⟨hop, n, hn, hlevel, b, hb⟩ := h
      obtain ⟨n', hn', hlevel', hhigh⟩ := hg.node pid n hn
      obtain ⟨b', hb', -⟩ := hhigh b hb
      exact ⟨hop, n', hn', by omega, b', hb'⟩

namespace BTreeIndex

/-- A second descent finds a root on or above the level it looks for. -/
def RootAbove (s : BTreeIndex) : BtreeAction → Prop
  | .run t =>
      match (s.threads t).pc with
      | .reloadRoot dropLevel _ _ => ∀ pg ∈ s.pages s.rootId, dropLevel ≤ pg.level
      | _ => True
  | _ => True

/-- The key of the call goes into or out of the leaves in its leaf section. -/
def KeyEffect (s s' : BTreeIndex) (t : Nat) : Prop :=
  ((s'.threads t).pc.searching = (s.threads t).pc.searching ∨ ∃ p, (s.threads t).op = .get p) ∧
      (∀ k, s'.tree.HasKey k ↔ s.tree.HasKey k) ∨
    (s.threads t).pc.searching = true ∧ (s'.threads t).pc.searching = false ∧
      match (s.threads t).op with
      | .insert columns tid => ∀ k, s'.tree.HasKey k ↔ s.tree.HasKey k ∨ k = buildKey columns tid
      | .delete columns tid => ∀ k, s'.tree.HasKey k ↔ s.tree.HasKey k ∧ k ≠ buildKey columns tid
      | .get _ => False

/-- What a step of thread `t` does. -/
structure Effect (s s' : BTreeIndex) (low low' : Nat → Key) (S : Key → Prop) (t : Nat) : Prop where
  shape : Shape s' low' S
  grows : LinkTree.Grows s.tree s'.tree low low'
  others : ∀ u, u ≠ t → s'.threads u = s.threads u
  pcOk : PcOk s'.tree low' S (s'.threads t)
  op : (s'.threads t).op = (s.threads t).op
  before : (s'.threads t).before = (s.threads t).before
  begun : s'.begun = s.begun
  present : s'.present = s.present
  keys : KeyEffect s s' t

section Steps

variable {s s' s₁ : BTreeIndex} {low low' : Nat → Key} {S : Key → Prop} {t : Nat}

theorem tree_congr (hpages : s'.pages = s.pages) (hroot : s'.rootId = s.rootId) :
    s'.tree = s.tree := by
  rw [tree, tree, hpages, hroot]

/-- A step that changes the thread only. -/
theorem effect_move (h : Shape s low S) {stack : List Nat} {pc : BtreePc}
    (hpc : PcOk s.tree low S { s.threads t with stack := stack, pc := pc })
    (hsearch : pc.searching = (s.threads t).pc.searching ∨ ∃ p, (s.threads t).op = .get p) :
    Effect s (s.moved t stack pc) low low S t := by
  have htree : (s.moved t stack pc).tree = s.tree := rfl
  refine ⟨h.congr rfl rfl le_rfl h.limit, htree ▸ LinkTree.Grows.refl _ _,
    fun u hu => moved_others _ _ hu,
    ?_, by rw [moved_threads], by rw [moved_threads], rfl, rfl, .inl ⟨?_, fun k => Iff.rfl⟩⟩
  · rw [htree, moved_threads]
    exact hpc
  · rw [moved_threads]
    exact hsearch

/-- A page that a thread relies on. -/
theorem page_of_at {p level : Nat} {k : Key} (h : s.tree.At low p level k) :
    ∃ pg, s.pages p = some pg ∧ pg.level = level ∧ low p ≤ k := by
  obtain ⟨n, hn, hlevel, hlow⟩ := h
  obtain ⟨pg, hpg, rfl⟩ := pages_of_tree hn
  exact ⟨pg, hpg, hlevel, hlow⟩

/-- The right neighbour after `HasSplit`. -/
theorem Shape.at_right (h : Shape s low S) {pid : Nat} {pg : BtreePage} {lay : Layout} {key : Key}
    (hp : s.pages pid = some pg) (hlay : pg.layout = lay) (hsplit : lay.hasSplit pg key = true) :
    s.tree.At low pg.rlink pg.level key ∧ low pid ≤ low pg.rlink := by
  subst hlay
  obtain ⟨b, hb, hle⟩ := Layout.hasSplit_iff.mp hsplit
  obtain ⟨hat, -, hlt⟩ := h.inv.at_right (tree_nodes hp) hb hle
  exact ⟨hat, hlt.le⟩

/-- The child after `Get` of an inner page. -/
theorem Shape.at_child (h : Shape s low S) {pid child : Nat} {pg : BtreePage} {key : Key}
    (hp : s.pages pid = some pg) (hlevel : pg.level ≠ 0)
    (hget : BtreeVarlenLayoutIntermediate.get pg key = .ok child) :
    s.tree.At low child (pg.level - 1) key ∧ low pid ≤ low child := by
  have hlay := BtreePage.layout_inter hlevel
  obtain ⟨e, he, rfl, hle⟩ := BtreeVarlenLayoutIntermediate.get_ok (hlay ▸ h.sorted hp) hget
  refine h.inv.at_child (tree_nodes hp) (Nat.pos_of_ne_zero hlevel) ?_ hle
  show e ∈ pg.layout.entries pg
  rw [hlay]
  exact he

theorem effect_descend (h : Shape s low S) {pid : Nat} (hpc : (s.threads t).pc = .descend pid)
    (hok : PcOk s.tree low S (s.threads t)) (hs : s.descendStep t pid = .ok s') :
    Effect s s' low low S t := by
  simp only [PcOk, hpc] at hok
  obtain ⟨level, hat, hstack⟩ := hok
  obtain ⟨pg, hp, hcase⟩ := descendStep_cases hs
  obtain ⟨pg', hp', rfl, hlow⟩ := page_of_at hat
  obtain rfl := Option.some.inj (hp.symm.trans hp')
  rcases hcase with ⟨hlevel, columns, hop, rfl⟩ | ⟨hlevel, -, rfl⟩ | ⟨hlevel, hsplit, rfl⟩ |
    ⟨hlevel, child, hchild, rfl⟩
  · exact effect_move h ⟨⟨_, hop⟩, _, tree_nodes hp, hlevel⟩ (.inr ⟨_, hop⟩)
  · rw [hlevel] at hat hstack
    exact effect_move h ⟨hat, hstack⟩ (.inl (by rw [hpc]; rfl))
  · obtain ⟨hright, hle⟩ := h.at_right hp (BtreePage.layout_inter hlevel) hsplit
    exact effect_move h ⟨pg.level, hright, hstack.mono hle⟩ (.inl (by rw [hpc]; rfl))
  · obtain ⟨hat', hle⟩ := h.at_child hp hlevel hchild
    have hpos : pg.level - 1 + 1 = pg.level := by omega
    refine effect_move h ⟨pg.level - 1, hat', ?_⟩ (.inl (by rw [hpc]; rfl))
    exact ⟨by rw [hpos]; exact ⟨_, tree_nodes hp, rfl, hle⟩, by rw [hpos]; exact hstack⟩

/-- A step that changes pages and moves the thread. -/
theorem effect_pages (hshape : Shape s₁ low' S) (hgrows : LinkTree.Grows s.tree s₁.tree low low')
    (hthreads : s₁.threads = s.threads) (hbegun : s₁.begun = s.begun)
    (hpresent : s₁.present = s.present) (stack : List Nat) (pc : BtreePc)
    (hpc : PcOk s₁.tree low' S { s.threads t with stack := stack, pc := pc })
    (hkeys : (pc.searching = (s.threads t).pc.searching ∧ ∀ k, s₁.tree.HasKey k ↔ s.tree.HasKey k) ∨
      (s.threads t).pc.searching = true ∧ pc.searching = false ∧
        match (s.threads t).op with
        | .insert columns tid => ∀ k, s₁.tree.HasKey k ↔ s.tree.HasKey k ∨ k = buildKey columns tid
        | .delete columns tid => ∀ k, s₁.tree.HasKey k ↔ s.tree.HasKey k ∧ k ≠ buildKey columns tid
        | .get _ => False) :
    Effect s (s₁.moved t stack pc) low low' S t := by
  have htree : (s₁.moved t stack pc).tree = s₁.tree := rfl
  refine ⟨hshape.congr rfl rfl le_rfl hshape.limit, by rw [htree]; exact hgrows,
    fun u hu => by rw [moved_others _ _ hu, hthreads], ?_, by rw [moved_threads, hthreads],
    by rw [moved_threads, hthreads], hbegun, hpresent, ?_⟩
  · rw [htree, moved_threads, hthreads]
    exact hpc
  · rw [KeyEffect, moved_threads, htree]
    rcases hkeys with ⟨hsearch, hsame⟩ | hplaced
    · exact .inl ⟨.inl hsearch, hsame⟩
    · exact .inr hplaced

/-- What a split leaves to do: the separator goes into the page on top of the
stack, or under a new root. -/
theorem pcOk_afterSplit {tr : LinkTree Key} {level pid newPid : Nat} {sentinel : Key}
    (th : BtreeThread) {lo : Key} (hstack : StackOk tr low th.stack level lo) (hlo : lo < sentinel)
    (hkey : KeyOf S sentinel) (hpid : ∃ n, tr.nodes pid = some n ∧ n.level = level)
    (hpending : Pending tr low newPid level sentinel) :
    (th.stack = [] → PcOk tr low S { th with pc := .root level sentinel pid newPid }) ∧
      ∀ top rest, th.stack = top :: rest →
        PcOk tr low S { th with stack := rest, pc := .inter sentinel newPid top } := by
  refine ⟨fun hnil => ⟨hnil, hpid, hpending, hkey, lt_of_le_of_lt bot_le hlo⟩,
    fun top rest hcons => ?_⟩
  rw [hcons] at hstack
  obtain ⟨⟨n, hn, hlevel, hlow⟩, hrest⟩ := hstack
  exact ⟨hkey, level, hpending, ⟨n, hn, hlevel, hlow.trans hlo.le⟩, hrest⟩

/-- A split by the thread. -/
theorem effect_split {pid newPid level : Nat} {sentinel : Key}
    (hshape : Shape s₁ low' S) (hgrows : LinkTree.Grows s.tree s₁.tree low low')
    (hthreads : s₁.threads = s.threads) (hbegun : s₁.begun = s.begun)
    (hpresent : s₁.present = s.present)
    (lo : Key) (hstack : StackOk s₁.tree low' (s.threads t).stack level lo) (hlo : lo < sentinel)
    (hkey : KeyOf S sentinel) (hpid : ∃ n, s₁.tree.nodes pid = some n ∧ n.level = level)
    (hpending : Pending s₁.tree low' newPid level sentinel)
    (hkeys : ((s.threads t).pc.searching = false ∧ ∀ k, s₁.tree.HasKey k ↔ s.tree.HasKey k) ∨
      (s.threads t).pc.searching = true ∧
        match (s.threads t).op with
        | .insert columns tid => ∀ k, s₁.tree.HasKey k ↔ s.tree.HasKey k ∨ k = buildKey columns tid
        | .delete columns tid => ∀ k, s₁.tree.HasKey k ↔ s.tree.HasKey k ∧ k ≠ buildKey columns tid
        | .get _ => False) :
    Effect s (s₁.afterSplit t level sentinel pid newPid) low low' S t := by
  obtain ⟨hroot, hinter⟩ := pcOk_afterSplit (s.threads t) hstack hlo hkey hpid hpending
  have hkeys' : ∀ pc : BtreePc, pc.searching = false →
      (pc.searching = (s.threads t).pc.searching ∧ ∀ k, s₁.tree.HasKey k ↔ s.tree.HasKey k) ∨
        (s.threads t).pc.searching = true ∧ pc.searching = false ∧
          match (s.threads t).op with
          | .insert columns tid => ∀ k, s₁.tree.HasKey k ↔ s.tree.HasKey k ∨
              k = buildKey columns tid
          | .delete columns tid => ∀ k, s₁.tree.HasKey k ↔ s.tree.HasKey k ∧
              k ≠ buildKey columns tid
          | .get _ => False := by
    intro pc hpc
    rcases hkeys with ⟨hsearch, hsame⟩ | ⟨hsearch, hplaced⟩
    · exact .inl ⟨by rw [hpc, hsearch], hsame⟩
    · exact .inr ⟨hsearch, hpc, hplaced⟩
  rcases afterSplit_eq s₁ t level pid newPid sentinel with ⟨pc, heq, hnil, rfl⟩ | ⟨top,
    rest, hcons, heq⟩
  · rw [heq]
    rw [hthreads] at hnil ⊢
    exact effect_pages hshape hgrows hthreads hbegun hpresent _ _ (hroot hnil) (hkeys' _ rfl)
  · rw [heq]
    rw [hthreads] at hcons
    exact effect_pages hshape hgrows hthreads hbegun hpresent _ _
      (hinter top rest hcons) (hkeys' _ rfl)

/-- A key of the index fits in the length field of a record. -/
theorem length_lt_of_keyOf {k : Key} (h : KeyOf S k) : k.length < 2 ^ 16 := by
  obtain ⟨p, u, -, -, hlen, rfl⟩ := h
  have : db7MaxRowSize = 819 := rfl
  rw [length_buildKey]
  omega

/-- The fence of the page that a section works on lies right of the key. -/
theorem covers_node {pg : BtreePage} {lay : Layout} {key : Key} (hlay : pg.layout = lay)
    (hsplit : ¬ lay.hasSplit pg key = true) : ∀ b ∈ pg.node.high, key < b := by
  intro b hb
  refine Layout.covers_of_not_hasSplit hsplit b ?_
  rw [← hlay]
  exact hb

theorem effect_insert (h : Shape s low S) {pid : Nat} {columns : Key} {tid : Nat}
    (hop : (s.threads t).op = .insert columns tid) (hpc : (s.threads t).pc = .leaf pid)
    (hok : PcOk s.tree low S (s.threads t)) (hkey : KeyOf S (buildKey columns tid))
    (hfresh : ¬ s.tree.HasKey (buildKey columns tid))
    (hs : s.insertStep t pid (s.threads t).op.key = .ok s') : ∃ low', Effect s s' low low' S t := by
  simp only [PcOk, hpc] at hok
  obtain ⟨hat, hstack⟩ := hok
  have hsearch : (s.threads t).pc.searching = true := by rw [hpc]; rfl
  rw [hop] at hs hat
  obtain ⟨pg, hp, hcase⟩ := insertStep_cases hs
  obtain ⟨pg', hp', hlevel, hlow⟩ := page_of_at hat
  obtain rfl := Option.some.inj (hp.symm.trans hp')
  have hlay := BtreePage.layout_leaf hlevel
  have hpage := h.page pid pg hp
  have hsorted := h.sorted hp
  have hne : ∀ e ∈ pg.node.entries, e.1 ≠ buildKey columns tid := fun e he heq =>
    hfresh ⟨pid, _, tree_nodes hp, hlevel, e, he, heq⟩
  rcases hcase with ⟨hsplit, rfl⟩ | ⟨hsplit, -, pg', hins, rfl⟩ |
    ⟨hsplit, -, hnext, l, r, sentinel, hsplits, rfl⟩
  · obtain ⟨hright, hle⟩ := h.at_right hp hlay hsplit
    rw [hlevel] at hright
    refine ⟨low, effect_move h ?_ (.inl (by rw [hpc]; rfl))⟩
    exact ⟨by rw [hop]; exact hright, hstack.mono hle⟩
  · -- the page has space
    obtain ⟨-, hins⟩ := BtreeVarlenLayoutLeaf.insert_ok (hlay ▸ hpage) (hlay ▸ hsorted) hins
    rw [← hlay] at hins
    obtain ⟨hshape, hgrows, hkeys⟩ := h.insert hp hins hlow (covers_node hlay hsplit) hkey
      (fun _ => hne) fun hl => absurd hlevel hl.ne'
    refine ⟨low, effect_pages hshape hgrows rfl rfl rfl (s.threads t).stack (.done []) trivial
      (.inr ⟨hsearch, rfl, ?_⟩)⟩
    rw [hop]
    intro k
    rw [hkeys]
    simp [hlevel, IndexOp.key]
  · -- the leaf is split
    have hsp :=
      Layout.split_ok (hlay ▸ hpage) (hlay ▸ hsorted) (length_lt_of_keyOf hkey) (by decide)
      hsplits
    rw [← hlay] at hsp
    have hn := h.nodeInv hp
    have hv := hsp.view hn.within hn.leftmost hlow (covers_node hlay hsplit) fun _ => hne
    rw [show (0 : Nat) = pg.level from hlevel.symm] at hv
    have hv' : Layout.SplitView pg.layout pg l r s.nextPid sentinel (low pid) (buildKey columns tid)
        pg.node.high pg.level 0 := by
      rw [hlevel] at hv ⊢
      exact hv
    obtain ⟨hshape, hgrows, hkeys, hlt, hsentinel⟩ := h.split hp hv' hnext hkey
      fun hl => absurd hlevel hl.ne'
    obtain ⟨hpl, hpr, -⟩ := splitPages_pages (l := l) (r := r) hp h
    refine ⟨update low s.nextPid sentinel, effect_split hshape hgrows rfl rfl rfl (low pid) ?_ hlt
      hsentinel ⟨_, tree_nodes hpl, rfl⟩ ⟨_, tree_nodes hpr, ?_, by simp⟩ (.inr ⟨hsearch, ?_⟩)⟩
    · rw [hv'.levelLeft, hlevel]
      exact hstack.grows hgrows
    · show r.level = l.level
      rw [hv'.levelRight, hv'.levelLeft]
    · rw [hop]
      intro k
      rw [hkeys]
      simp [hlevel]

theorem effect_delete (h : Shape s low S) {pid : Nat} {columns : Key} {tid : Nat}
    (hop : (s.threads t).op = .delete columns tid) (hpc : (s.threads t).pc = .leaf pid)
    (hok : PcOk s.tree low S (s.threads t))
    (hs : s.deleteStep t pid (s.threads t).op.key = .ok s') : Effect s s' low low S t := by
  simp only [PcOk, hpc] at hok
  obtain ⟨hat, hstack⟩ := hok
  have hsearch : (s.threads t).pc.searching = true := by rw [hpc]; rfl
  rw [hop] at hs hat
  obtain ⟨pg, hp, hcase⟩ := deleteStep_cases hs
  obtain ⟨pg', hp', hlevel, hlow⟩ := page_of_at hat
  obtain rfl := Option.some.inj (hp.symm.trans hp')
  have hlay := BtreePage.layout_leaf hlevel
  rcases hcase with ⟨hsplit, rfl⟩ | ⟨hsplit, pg', hdel, rfl⟩
  · obtain ⟨hright, hle⟩ := h.at_right hp hlay hsplit
    rw [hlevel] at hright
    refine effect_move h ?_ (.inl (by rw [hpc]; rfl))
    exact ⟨by rw [hop]; exact hright, hstack.mono hle⟩
  · obtain ⟨hshape, hgrows, hkeys⟩ := h.delete hp hlevel hdel hlow (covers_node hlay hsplit)
    refine effect_pages hshape hgrows rfl rfl rfl (s.threads t).stack (.done []) trivial
      (.inr ⟨hsearch, rfl, ?_⟩)
    rw [hop]
    exact hkeys

theorem effect_root (h : Shape s low S) {level pid newPid : Nat} {sentinel : Key}
    (hpc : (s.threads t).pc = .root level sentinel pid newPid)
    (hok : PcOk s.tree low S (s.threads t))
    (hs : s.rootStep t level sentinel pid newPid = .ok s') : ∃ low', Effect s s' low low' S t := by
  simp only [PcOk, hpc] at hok
  obtain ⟨hstack, ⟨n, hn, hlevel⟩, hpending, hkey, hpos⟩ := hok
  rcases rootStep_cases hs with ⟨rfl, hnext, root, hcreateRoot, rfl⟩ | ⟨-, rfl⟩
  · obtain ⟨pg, hp, rfl⟩ := pages_of_tree hn
    obtain ⟨m, hm, hmlevel, hlow⟩ := hpending
    obtain ⟨rpg, hrp, rfl⟩ := pages_of_tree hm
    have hlevel' : pg.level = level := hlevel
    obtain ⟨hpage, hentries, hhigh, hrootLevel, -⟩ := BtreeVarlenLayoutIntermediate.createRoot_ok
      (length_lt_of_keyOf hkey) (by rintro rfl; exact absurd hpos (lt_irrefl _))
        (h.lt_undefined hp).2
      (h.lt_undefined hrp).2 hcreateRoot
    obtain ⟨hshape, hgrows, hkeys⟩ :=
      h.newRoot hp hnext hkey hrp (hmlevel.trans hlevel'.symm) hlow hpos
      hpage hentries hhigh (by rw [hrootLevel, hlevel'])
    exact ⟨_, effect_pages hshape hgrows rfl rfl rfl (s.threads t).stack (.done []) trivial
      (.inl ⟨by rw [hpc]; rfl, hkeys⟩)⟩
  · exact ⟨low, effect_move h ⟨hstack, hkey, level, rfl, hpending⟩ (.inl (by rw [hpc]; rfl))⟩

theorem effect_reloadRoot (h : Shape s low S) {dropLevel newPid : Nat} {sentinel : Key}
    (hpc : (s.threads t).pc = .reloadRoot dropLevel sentinel newPid)
    (hok : PcOk s.tree low S (s.threads t)) (hc : s.RootAbove (.run t))
    (hs : s.reloadRootStep t dropLevel sentinel newPid = .ok s') : Effect s s' low low S t := by
  simp only [PcOk, hpc] at hok
  simp only [RootAbove, hpc] at hc
  obtain ⟨hstack, hkey, level, rfl, hpending⟩ := hok
  obtain ⟨pg, hp, rfl⟩ := reloadRootStep_cases hs
  refine effect_move h ⟨hkey, hc pg hp, h.inv.at_root sentinel (tree_nodes hp), ?_,
    level, rfl, hpending⟩
    (.inl (by rw [hpc]; rfl))
  rw [hstack]
  trivial

theorem effect_redescend (h : Shape s low S) {dropLevel newPid pid level : Nat} {sentinel : Key}
    (hpc : (s.threads t).pc = .redescend dropLevel sentinel newPid pid level)
    (hok : PcOk s.tree low S (s.threads t))
    (hs : s.redescendStep t dropLevel sentinel newPid pid level = .ok s') :
    Effect s s' low low S t := by
  simp only [PcOk, hpc] at hok
  obtain ⟨hkey, hle, hat, hstack, l, rfl, hpending⟩ := hok
  obtain ⟨pg, hp, hlvl, hcase⟩ := redescendStep_cases hs
  obtain ⟨pg', hp', rfl, hlow⟩ := page_of_at hat
  obtain rfl := Option.some.inj (hp.symm.trans hp')
  rcases hcase with ⟨hdrop, rfl⟩ | ⟨hdrop, hsplit, rfl⟩ | ⟨hdrop, child, hchild, rfl⟩
  · -- the target level
    have hlevel : pg.level = l + 1 := by omega
    rw [hlevel] at hat hstack
    exact effect_move h ⟨hkey, l, hpending, hat, hstack⟩ (.inl (by rw [hpc]; rfl))
  · have hpos : pg.level ≠ 0 := by omega
    obtain ⟨hright, hle'⟩ := h.at_right hp (BtreePage.layout_inter hpos) hsplit
    exact effect_move h ⟨hkey, hle, hright, hstack.mono hle', l, rfl, hpending⟩
      (.inl (by rw [hpc]; rfl))
  · obtain ⟨hat', hle'⟩ := h.at_child hp (by omega) hchild
    have hpred : pg.level - 1 + 1 = pg.level := by omega
    refine effect_move h ⟨hkey, by omega, hat', ?_, l, rfl, hpending⟩ (.inl (by rw [hpc]; rfl))
    exact ⟨by rw [hpred]; exact ⟨_, tree_nodes hp, rfl, hle'⟩, by rw [hpred]; exact hstack⟩

theorem effect_inter (h : Shape s low S) {value pid : Nat} {sentinel : Key}
    (hpc : (s.threads t).pc = .inter sentinel value pid) (hok : PcOk s.tree low S (s.threads t))
    (hs : s.interStep t sentinel value pid = .ok s') : ∃ low', Effect s s' low low' S t := by
  simp only [PcOk, hpc] at hok
  obtain ⟨hkey, l, hpending, hat, hstack⟩ := hok
  have hsearch : (s.threads t).pc.searching = false := by rw [hpc]; rfl
  obtain ⟨pg, hp, hcase⟩ := interStep_cases hs
  obtain ⟨pg', hp', hlevel, hlow⟩ := page_of_at hat
  obtain rfl := Option.some.inj (hp.symm.trans hp')
  have hpos : pg.level ≠ 0 := by omega
  have hlay := BtreePage.layout_inter hpos
  have hpage := h.page pid pg hp
  have hsorted := h.sorted hp
  obtain ⟨m, hm, hmlevel, hmlow⟩ := id hpending
  have hchild : 0 < pg.level → ∃ m, s.tree.nodes value = some m ∧ m.level + 1 = pg.level ∧
      low value = sentinel := fun _ => ⟨m, hm, by omega, hmlow⟩
  have hvalue : value < 2 ^ 32 := by
    obtain ⟨vpg, hvp, -⟩ := pages_of_tree hm
    exact (h.lt_undefined hvp).2
  rcases hcase with ⟨hsplit, rfl⟩ | ⟨hsplit, -, pg', hins, rfl⟩ |
    ⟨hsplit, -, hnext, lpg, r, sentinel', hsplits, rfl⟩
  · obtain ⟨hright, hle⟩ := h.at_right hp hlay hsplit
    rw [hlevel] at hright
    exact ⟨low, effect_move h ⟨hkey, l, hpending, hright, hstack.mono hle⟩
      (.inl (by rw [hpc]; rfl))⟩
  · -- the separator goes in
    have hins := BtreeVarlenLayoutIntermediate.insert_ok (hlay ▸ hpage) (hlay ▸ hsorted) hvalue hins
    rw [← hlay] at hins
    obtain ⟨hshape, hgrows, hkeys⟩ := h.insert hp hins hlow (covers_node hlay hsplit) hkey
      (fun hl => absurd hl hpos) hchild
    refine ⟨low, effect_pages hshape hgrows rfl rfl rfl (s.threads t).stack (.done []) trivial
      (.inl ⟨by rw [hpc]; rfl, fun k => ?_⟩)⟩
    rw [hkeys]
    simp [hpos]
  · -- the inner page is split
    have hsp :=
      Layout.split_ok (hlay ▸ hpage) (hlay ▸ hsorted) (length_lt_of_keyOf hkey) hvalue hsplits
    rw [← hlay] at hsp
    have hn := h.nodeInv hp
    have hv := hsp.view hn.within hn.leftmost hlow (covers_node hlay hsplit) fun hleaf => by
      rw [hlay] at hleaf
      exact absurd hleaf (by simp)
    obtain ⟨hshape, hgrows, hkeys, hlt, hsentinel⟩ := h.split hp hv hnext hkey hchild
    obtain ⟨hpl, hpr, -⟩ := splitPages_pages (l := lpg) (r := r) hp h
    refine ⟨update low s.nextPid sentinel', effect_split hshape hgrows rfl rfl rfl (low pid) ?_ hlt
      hsentinel ⟨_, tree_nodes hpl, rfl⟩ ⟨_, tree_nodes hpr, ?_, by simp⟩
      (.inl ⟨hsearch, fun k => ?_⟩)⟩
    · rw [hv.levelLeft, hlevel]
      exact hstack.grows hgrows
    · show r.level = lpg.level
      rw [hv.levelRight, hv.levelLeft]
    · rw [hkeys]
      simp [hpos]

theorem effect_scan (h : Shape s low S) {pid : Nat} {results : List Nat}
    (hpc : (s.threads t).pc = .scan pid results) (hok : PcOk s.tree low S (s.threads t))
    (hs : s.scanStep t pid results = .ok s') : Effect s s' low low S t := by
  simp only [PcOk, hpc] at hok
  obtain ⟨⟨columns, hop⟩, n, hn, hlevel⟩ := hok
  obtain ⟨pg, hp, hcase⟩ := scanStep_cases hs
  obtain rfl := Option.some.inj ((tree_nodes hp).symm.trans hn)
  have hlay := BtreePage.layout_leaf hlevel
  rcases hcase with ⟨hsplit, rfl⟩ | ⟨-, hproceed, rfl⟩ | ⟨-, -, rfl⟩
  · obtain ⟨⟨m, hm, hmlevel, -⟩, -⟩ := h.at_right hp hlay hsplit
    exact effect_move h ⟨⟨_, hop⟩, m, hm, hmlevel.trans hlevel⟩ (.inr ⟨_, hop⟩)
  · -- a fence with the columns was seen, so there is a right neighbour
    have hprefix : BtreeVarlenLayoutLeaf.highPrefixCmp pg (s.threads t).op.key = true := hproceed
    obtain ⟨b, hb, -⟩ := BtreeVarlenLayoutLeaf.highPrefixCmp_iff.mp hprefix
    refine effect_move h ⟨⟨_, hop⟩, _, hn, hlevel, b, ?_⟩ (.inr ⟨_, hop⟩)
    show b ∈ pg.layout.high pg
    rw [hlay]
    exact hb
  · exact effect_move h trivial (.inr ⟨_, hop⟩)

theorem effect_follow (h : Shape s low S) {pid : Nat} {results : List Nat}
    (hpc : (s.threads t).pc = .follow pid results) (hok : PcOk s.tree low S (s.threads t))
    (hs : s.followStep t pid results = .ok s') : Effect s s' low low S t := by
  simp only [PcOk, hpc] at hok
  obtain ⟨⟨columns, hop⟩, n, hn, hlevel, b, hb⟩ := hok
  obtain ⟨pg, hp, hcase⟩ := followStep_cases hs
  obtain rfl := Option.some.inj ((tree_nodes hp).symm.trans hn)
  rcases hcase with ⟨-, rfl⟩ | ⟨-, rfl⟩
  · exact effect_move h trivial (.inr ⟨_, hop⟩)
  · obtain ⟨m, hm, hmlevel, -⟩ := (h.nodeInv hp).right b hb
    exact effect_move h ⟨⟨_, hop⟩, m, hm, hmlevel.trans hlevel⟩ (.inr ⟨_, hop⟩)

/-- An insert brings a key that is not there. -/
def CallOk (s : BTreeIndex) (S : Key → Prop) (t : Nat) : Prop :=
  ∀ columns tid, (s.threads t).op = .insert columns tid → (s.threads t).pc.searching = true →
    KeyOf S (buildKey columns tid) ∧ ¬ s.tree.HasKey (buildKey columns tid)

/-- One step of a thread. -/
theorem effect_run (h : Shape s low S) (hok : PcOk s.tree low S (s.threads t))
    (hcall : CallOk s S t)
    (hc : s.RootAbove (.run t)) (hs : s.runThread t (s.threads t).pc = .ok s') :
    ∃ low', Effect s s' low low' S t := by
  cases hpc : (s.threads t).pc with
  | idle => simp [hpc, runThread] at hs
  | done => simp [hpc, runThread] at hs
  | loadRoot =>
      simp only [hpc, runThread, Except.ok.injEq] at hs
      subst hs
      simp only [PcOk, hpc] at hok
      obtain ⟨n, hn, -⟩ := h.inv.root
      refine ⟨low, effect_move h ⟨n.level, h.inv.at_root _ hn, ?_⟩ (.inl (by rw [hpc]; rfl))⟩
      rw [hok]
      trivial
  | descend pid => exact ⟨low, effect_descend h hpc hok (by simpa [hpc, runThread] using hs)⟩
  | leaf pid =>
      simp only [hpc, runThread] at hs
      cases hop : (s.threads t).op with
      | insert columns tid =>
          obtain ⟨hkey, hfresh⟩ := hcall columns tid hop (by rw [hpc]; rfl)
          exact effect_insert h hop hpc hok hkey hfresh (by simpa [hop] using hs)
      | delete columns tid => exact ⟨low, effect_delete h hop hpc hok (by simpa [hop] using hs)⟩
      | get columns => simp [hop] at hs
  | root level sentinel pid newPid =>
      exact effect_root h hpc hok (by simpa [hpc, runThread] using hs)
  | reloadRoot dropLevel sentinel newPid =>
      exact ⟨low, effect_reloadRoot h hpc hok hc (by simpa [hpc, runThread] using hs)⟩
  | redescend dropLevel sentinel newPid pid level =>
      exact ⟨low, effect_redescend h hpc hok (by simpa [hpc, runThread] using hs)⟩
  | inter sentinel value pid => exact effect_inter h hpc hok (by simpa [hpc, runThread] using hs)
  | scan pid results => exact ⟨low, effect_scan h hpc hok (by simpa [hpc, runThread] using hs)⟩
  | follow pid results => exact ⟨low, effect_follow h hpc hok (by simpa [hpc, runThread] using hs)⟩

end Steps

end BTreeIndex

end Db7
