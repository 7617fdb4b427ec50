import Db7.Index.Linearizable
import Db7.Index.PinBalance

/-!
# Runs with pins are runs of sections

Without `InsertUnique`, what threads do to the pins and the latches of pages does not show in the
pages:

* **levels** (`KeepsLevels`): a page keeps its level, so it does not matter when a second descent
  reads that of the root;
* **relation** (`IndexShows`): the pages, the root and the next id are the same, and each thread is
  at the same section;
* **result** (`pins_refine`): a run of `pinSystem` is a run of `btreeSystem`, in which `GetNode` up
  to the pin is no step.
-/

namespace Db7

open Lib Function KeyNormEncoder

/-! ## Page operations keep the level -/

namespace Layout

variable {lay : Layout} {pg pg' left right l r : BtreePage} {key sentinel : Key}
  {child off off' len n newPid : Nat}

theorem appendHeap_level (h : lay.appendHeap pg key child = .ok (pg', off)) :
    pg'.level = pg.level := by
  unfold appendHeap at h
  dsimp only at h
  split at h
  · obtain ⟨rfl, -⟩ := Prod.mk.inj (Except.ok.inj h)
    rfl
  · cases h

theorem moveHeap_level (h : lay.moveHeap pg off len = .ok (pg', off')) : pg'.level = pg.level := by
  unfold moveHeap at h
  dsimp only at h
  split at h
  · obtain ⟨_, -, h⟩ := bind_ok.mp h
    obtain ⟨rfl, -⟩ := Prod.mk.inj (Except.ok.inj h)
    rfl
  · cases h

theorem compactOne_level (h : lay.compactOne pg n = .ok pg') : pg'.level = pg.level := by
  obtain ⟨⟨pg₁, off⟩, hmove, h⟩ := bind_ok.mp h
  have hlevel : pg₁.level = pg.level := moveHeap_level hmove
  obtain rfl := Except.ok.inj h
  exact hlevel

theorem foldlM_compactOne_level {indexes : List Nat}
    (h : indexes.foldlM lay.compactOne pg = .ok pg') :
    pg'.level = pg.level := by
  induction indexes generalizing pg with
  | nil =>
      obtain rfl := Except.ok.inj h
      rfl
  | cons i indexes ih =>
      rw [List.foldlM_cons] at h
      obtain ⟨pg₁, hone, h⟩ := bind_ok.mp h
      exact (ih h).trans (compactOne_level hone)

theorem compactHeap_level (h : lay.compactHeap pg n = .ok pg') : pg'.level = pg.level := by
  obtain ⟨_, -, h⟩ := bind_ok.mp h
  exact foldlM_compactOne_level h

theorem insertTuple_level (h : lay.insertTuple pg key child = .ok pg') : pg'.level = pg.level := by
  obtain ⟨⟨pg₁, off⟩, happend, h⟩ := bind_ok.mp h
  have hlevel : pg₁.level = pg.level := appendHeap_level happend
  obtain ⟨idx, -, h⟩ := bind_ok.mp h
  split at h
  · obtain rfl := Except.ok.inj h
    exact hlevel
  · cases h

theorem halves_level (h : lay.halves left right newPid = .ok (l, r, sentinel)) :
    l.level = left.level := by
  obtain ⟨_, -, h⟩ := bind_ok.mp h
  obtain ⟨split, -, h⟩ := bind_ok.mp h
  obtain ⟨⟨right', rightMax⟩, -, h⟩ := bind_ok.mp h
  obtain ⟨left₁, hcompact, h⟩ := bind_ok.mp h
  obtain ⟨⟨left₂, leftMax⟩, happend, h⟩ := bind_ok.mp h
  have hlevel₁ := compactHeap_level hcompact
  have hlevel₂ : left₂.level = left₁.level := appendHeap_level happend
  obtain ⟨rfl, -⟩ := Prod.mk.inj (Except.ok.inj h)
  exact hlevel₂.trans hlevel₁

theorem split_level (h : lay.split left right newPid key child = .ok (l, r, sentinel)) :
    l.level = left.level := by
  obtain ⟨⟨l₁, r₁, sentinel₁⟩, hhalves, h⟩ := bind_ok.mp h
  dsimp only at h
  split at h
  · obtain ⟨_, -, h⟩ := bind_ok.mp h
    obtain ⟨r₂, -, h⟩ := bind_ok.mp h
    obtain ⟨rfl, -⟩ := Prod.mk.inj (Except.ok.inj h)
    exact halves_level hhalves
  · obtain ⟨_, -, h⟩ := bind_ok.mp h
    obtain ⟨l₂, hinsert, h⟩ := bind_ok.mp h
    obtain ⟨rfl, -⟩ := Prod.mk.inj (Except.ok.inj h)
    exact (insertTuple_level hinsert).trans (halves_level hhalves)

end Layout

section Levels

variable {pg pg' : BtreePage} {key : Key} {value : Nat}

theorem BtreeVarlenLayoutLeaf.insert_level (h : BtreeVarlenLayoutLeaf.insert pg key = .ok pg') :
    pg'.level = pg.level := by
  obtain ⟨_, -, h⟩ := bind_ok.mp h
  exact Layout.insertTuple_level h

theorem BtreeVarlenLayoutLeaf.delete_level (h : BtreeVarlenLayoutLeaf.delete pg key = .ok pg') :
    pg'.level = pg.level := by
  unfold BtreeVarlenLayoutLeaf.delete at h
  dsimp only at h
  split at h
  · obtain ⟨_, -, h⟩ := bind_ok.mp h
    obtain rfl := Except.ok.inj h
    rfl
  · cases h

theorem BtreeVarlenLayoutIntermediate.insert_level
    (h : BtreeVarlenLayoutIntermediate.insert pg key value = .ok pg') : pg'.level = pg.level := by
  obtain ⟨_, -, h⟩ := bind_ok.mp h
  obtain ⟨_, -, h⟩ := bind_ok.mp h
  exact Layout.insertTuple_level h

end Levels

/-- The pages that are there stay, each at its level. -/
def KeepsLevels (pages pages' : Nat → Option BtreePage) : Prop :=
  ∀ pid pg, pages pid = some pg → ∃ pg', pages' pid = some pg' ∧ pg'.level = pg.level

/-! ## The relation -/

/-- The call, unless it is an `InsertUnique`. -/
def PinOp.index : PinOp → Option IndexOp
  | insert columns tid => some (.insert columns tid)
  | insertUnique .. => none
  | delete columns tid => some (.delete columns tid)
  | get columns => some (.get columns)

theorem PinOp.key_of_index {op : PinOp} {op' : IndexOp} (h : op.index = some op') :
    op'.key = op.descentKey ∧ op'.key = op.key := by
  cases op with
  | insertUnique => cases h
  | insert | delete | get =>
      obtain rfl := Option.some.inj h
      exact ⟨rfl, rfl⟩

/-- The section on a page. A second descent at the root may have its level still to read. -/
inductive NodeShows (pages : Nat → Option BtreePage) (op : IndexOp) : NodePc → BtreePc → Prop
  | drop {pid} : NodeShows pages op (.drop pid) (.descend pid)
  | leaf {pid} (hop : ∀ columns, op ≠ .get columns) : NodeShows pages op (.leaf pid) (.leaf pid)
  | redropRoot {dropLevel sentinel newPid pid pg} (hp : pages pid = some pg) :
      NodeShows pages op (.redrop dropLevel sentinel newPid pid none)
        (.redescend dropLevel sentinel newPid pid pg.level)
  | redrop {dropLevel sentinel newPid pid level} :
      NodeShows pages op (.redrop dropLevel sentinel newPid pid (some level))
        (.redescend dropLevel sentinel newPid pid level)
  | inter {sentinel value pid} :
    NodeShows pages op (.inter sentinel value pid) (.inter sentinel value pid)
  | scan {pid results} : NodeShows pages op (.scan pid results) (.scan pid results)

/-- The place inside a call. -/
inductive PcShows (pages : Nat → Option BtreePage) (op : IndexOp) : PinPc → BtreePc → Prop
  | idle : PcShows pages op .idle .idle
  | loadRoot : PcShows pages op .loadRoot .loadRoot
  | getNode {n pc} (h : NodeShows pages op n pc) : PcShows pages op (.getNode n) pc
  | node {n pc} (h : NodeShows pages op n pc) : PcShows pages op (.node n) pc
  | root {level sentinel pid newPid} :
      PcShows pages op (.root level sentinel pid newPid) (.root level sentinel pid newPid)
  | reloadRoot {dropLevel sentinel newPid} :
      PcShows pages op (.reloadRoot dropLevel sentinel newPid)
        (.reloadRoot dropLevel sentinel newPid)
  | follow {pid results} : PcShows pages op (.follow pid results) (.follow pid results)
  | done {results} : PcShows pages op (.done true results) (.done results)

/-- A thread with pins at the section of a thread without them. -/
structure ThreadShows (pages : Nat → Option BtreePage) (th : PinThread) (th' : BtreeThread) :
    Prop where
  op : th.op.index = some th'.op
  stack : th'.stack = th.stack
  pc : PcShows pages th'.op th.pc th'.pc

/-- The index without its pins and latches. -/
structure IndexShows (s : PinnedIndex) (b : BTreeIndex) : Prop where
  pages : b.pages = s.pages
  rootId : b.rootId = s.rootId
  nextPid : b.nextPid = s.nextPid
  threads : ∀ t, ThreadShows s.pages (s.threads t) (b.threads t)
  limit : s.nextPid ≤ reserveLimit
  root : ∃ pg, s.pages s.rootId = some pg
  fresh : ∀ p, s.nextPid ≤ p → s.pages p = none

/-- The action of `btreeSystem`, unless it calls `InsertUnique`. -/
def PinAction.index : PinAction → Option BtreeAction
  | invoke t op => op.index.map (.invoke t)
  | run t _ => some (.run t)
  | ret t => some (.ret t)

section Relation

variable {pages pages' : Nat → Option BtreePage} {s s' : PinnedIndex} {b b' : BTreeIndex}
  {t pid newPid level : Nat} {op : IndexOp} {pg pg' l r : BtreePage} {sentinel : Key}

theorem NodeShows.keeps {n : NodePc} {pc : BtreePc} (h : NodeShows pages op n pc)
    (hk : KeepsLevels pages pages') :
    NodeShows pages' op n pc := by
  cases h with
  | drop => exact .drop
  | leaf hop => exact .leaf hop
  | redropRoot hp =>
      obtain ⟨pg', hp', hlevel⟩ := hk _ _ hp
      rw [← hlevel]
      exact .redropRoot hp'
  | redrop => exact .redrop
  | inter => exact .inter
  | scan => exact .scan

theorem PcShows.keeps {p : PinPc} {pc : BtreePc} (h : PcShows pages op p pc)
    (hk : KeepsLevels pages pages') :
    PcShows pages' op p pc := by
  cases h with
  | idle => exact .idle
  | loadRoot => exact .loadRoot
  | getNode h => exact .getNode (h.keeps hk)
  | node h => exact .node (h.keeps hk)
  | root => exact .root
  | reloadRoot => exact .reloadRoot
  | follow => exact .follow
  | done => exact .done

/-- A thread changes, and the pages do not. -/
theorem IndexShows.acts {th : PinThread} {th' : BtreeThread} (h : IndexShows s b)
    (hpages : s'.pages = s.pages) (hroot : s'.rootId = s.rootId) (hnext : s'.nextPid = s.nextPid)
    (hthreads : s'.threads = update s.threads t th)
    (hpages' : b'.pages = b.pages) (hroot' : b'.rootId = b.rootId) (hnext' : b'.nextPid = b.nextPid)
    (hthreads' : b'.threads = update b.threads t th') (hth : ThreadShows s.pages th th') :
    IndexShows s' b' where
  pages := by rw [hpages', hpages]; exact h.pages
  rootId := by rw [hroot', hroot]; exact h.rootId
  nextPid := by rw [hnext', hnext]; exact h.nextPid
  threads u := by
    rw [hpages, hthreads, hthreads']
    by_cases hu : u = t
    · subst hu
      rw [update_self, update_self]
      exact hth
    · rw [update_of_ne hu, update_of_ne hu]
      exact h.threads u
  limit := by rw [hnext]; exact h.limit
  root := by rw [hpages, hroot]; exact h.root
  fresh := by rw [hpages, hnext]; exact h.fresh

/-- A thread goes on with its call. -/
theorem IndexShows.moved {stack : List Nat} {pc : PinPc} {pc' : BtreePc} (h : IndexShows s b)
    (hpages : s'.pages = s.pages) (hroot : s'.rootId = s.rootId) (hnext : s'.nextPid = s.nextPid)
    (hthreads : s'.threads = update s.threads t { s.threads t with stack := stack, pc := pc })
    (hpc : PcShows s.pages (b.threads t).op pc pc') :
      IndexShows s' ((b.setStack t stack).goto t pc') := by
  rw [BTreeIndex.setStack_goto]
  exact h.acts hpages hroot hnext hthreads rfl rfl rfl rfl ⟨(h.threads t).op, rfl, hpc⟩

/-- A thread stays on its stack. -/
theorem IndexShows.goto {pc : PinPc} {pc' : BtreePc} (h : IndexShows s b)
    (hpages : s'.pages = s.pages) (hroot : s'.rootId = s.rootId) (hnext : s'.nextPid = s.nextPid)
    (hthreads : s'.threads = update s.threads t { s.threads t with pc := pc })
    (hpc : PcShows s.pages (b.threads t).op pc pc') : IndexShows s' (b.goto t pc') :=
  h.acts hpages hroot hnext hthreads rfl rfl rfl rfl ⟨(h.threads t).op, (h.threads t).stack, hpc⟩

/-- The pages change, and the threads do not. -/
theorem IndexShows.grows (h : IndexShows s b) (hk : KeepsLevels s.pages s'.pages)
    (hthreads : s'.threads = s.threads)
    (hthreads' : b'.threads = b.threads) (hpages : b'.pages = s'.pages)
    (hroot : b'.rootId = s'.rootId)
    (hnext : b'.nextPid = s'.nextPid) (hlimit : s'.nextPid ≤ reserveLimit)
    (hrooted : ∃ pg, s'.pages s'.rootId = some pg)
    (hfresh : ∀ p, s'.nextPid ≤ p → s'.pages p = none) :
    IndexShows s' b' where
  pages := hpages
  rootId := hroot
  nextPid := hnext
  threads u := by
    rw [hthreads, hthreads']
    exact ⟨(h.threads u).op, (h.threads u).stack, (h.threads u).pc.keeps hk⟩
  limit := hlimit
  root := hrooted
  fresh := hfresh

theorem IndexShows.lt_nextPid (h : IndexShows s b) (hp : s.pages pid = some pg) :
    pid < s.nextPid := by
  by_contra hle
  rw [h.fresh pid (Nat.not_lt.mp hle)] at hp
  cases hp

theorem IndexShows.getNode (h : IndexShows s b) (hget : s.getData pid = .ok pg) :
    b.getNode pid = .ok pg := by
  unfold PinnedIndex.getData at hget
  unfold BTreeIndex.getNode
  rw [h.pages]
  exact hget

theorem IndexShows.page (h : IndexShows s b) (hget : s.getData pid = .ok pg) :
    s.pages pid = some pg := by
  rw [← h.pages]
  exact BTreeIndex.getNode_ok (h.getNode hget)

/-- Pins and latches change. -/
theorem IndexShows.same (h : IndexShows s b) (hpages : s'.pages = s.pages)
    (hroot : s'.rootId = s.rootId)
    (hnext : s'.nextPid = s.nextPid) (hthreads : s'.threads = s.threads) : IndexShows s' b where
  pages := by rw [hpages]; exact h.pages
  rootId := by rw [hroot]; exact h.rootId
  nextPid := by rw [hnext]; exact h.nextPid
  threads u := by rw [hpages, hthreads]; exact h.threads u
  limit := by rw [hnext]; exact h.limit
  root := by rw [hpages, hroot]; exact h.root
  fresh := by rw [hpages, hnext]; exact h.fresh

/-- A page is written that keeps its level. -/
theorem IndexShows.setPage (h : IndexShows s b) (hp : s.pages pid = some pg)
    (hlevel : pg'.level = pg.level) :
    IndexShows (s.setPage pid pg') (b.setPage pid pg') := by
  have hlt := h.lt_nextPid hp
  have hkeeps : KeepsLevels s.pages (s.setPage pid pg').pages := by
    intro p q hq
    show ∃ q', update s.pages pid (some pg') p = some q' ∧ _
    by_cases hpid : p = pid
    · subst hpid
      obtain rfl := Option.some.inj (hp.symm.trans hq)
      exact ⟨pg', update_self .., hlevel⟩
    · exact ⟨q, by rw [update_of_ne hpid, hq], rfl⟩
  obtain ⟨rpg, hrpg⟩ := h.root
  obtain ⟨rpg', hrpg', -⟩ := hkeeps _ _ hrpg
  refine h.grows hkeeps rfl rfl ?_ h.rootId h.nextPid h.limit ⟨rpg', hrpg'⟩ ?_
  · show update b.pages pid (some pg') = update s.pages pid (some pg')
    rw [h.pages]
  · intro p hle
    have hne : p ≠ pid := Nat.ne_of_gt (Nat.lt_of_lt_of_le hlt hle)
    show update s.pages pid (some pg') p = none
    rw [update_of_ne hne, h.fresh p hle]

/-- A page is split, into one that keeps its level and a fresh one. -/
theorem IndexShows.splitPages (h : IndexShows s b) (hp : s.pages pid = some pg)
    (hlevel : l.level = pg.level) (hlimit : s.nextPid < reserveLimit)
    (hpages : s'.pages = update (update s.pages pid (some l)) s.nextPid (some r))
    (hthreads : s'.threads = s.threads) (hroot : s'.rootId = s.rootId)
    (hnext : s'.nextPid = s.nextPid + 1) :
    IndexShows s' (b.splitPages pid l r) := by
  have hlt := h.lt_nextPid hp
  have hkeeps : KeepsLevels s.pages s'.pages := by
    intro p q hq
    have hne : p ≠ s.nextPid := Nat.ne_of_lt (h.lt_nextPid hq)
    rw [hpages, update_of_ne hne]
    by_cases hpid : p = pid
    · subst hpid
      obtain rfl := Option.some.inj (hp.symm.trans hq)
      exact ⟨l, update_self .., hlevel⟩
    · exact ⟨q, by rw [update_of_ne hpid, hq], rfl⟩
  obtain ⟨rpg, hrpg⟩ := h.root
  obtain ⟨rpg', hrpg', -⟩ := hkeeps _ _ hrpg
  refine h.grows hkeeps hthreads rfl ?_ (h.rootId.trans hroot.symm) ?_ (by rw [hnext]; exact hlimit)
    ⟨rpg', hroot ▸ hrpg'⟩ ?_
  · show update (update b.pages pid (some l)) b.nextPid (some r) = _
    rw [h.pages, h.nextPid, hpages]
  · show b.nextPid + 1 = _
    rw [h.nextPid, hnext]
  · intro p hle
    rw [hnext] at hle
    rw [hpages, update_of_ne (by omega), update_of_ne (by omega), h.fresh p (by omega)]

/-- A fresh page is the root. -/
theorem IndexShows.rooted {root : BtreePage} (h : IndexShows s b)
    (hlimit : s.nextPid < reserveLimit)
    (hpages : s'.pages = update s.pages s.nextPid (some root)) (hthreads : s'.threads = s.threads)
    (hroot : s'.rootId = s.nextPid) (hnext : s'.nextPid = s.nextPid + 1) :
    IndexShows s' (b.rooted root) := by
  refine h.grows ?_ hthreads rfl ?_ ?_ ?_ (by rw [hnext]; exact hlimit) ⟨root, ?_⟩ ?_
  · intro p q hq
    have hne : p ≠ s.nextPid := Nat.ne_of_lt (h.lt_nextPid hq)
    exact ⟨q, by rw [hpages, update_of_ne hne, hq], rfl⟩
  · show update b.pages b.nextPid (some root) = _
    rw [h.pages, h.nextPid, hpages]
  · show b.nextPid = _
    rw [h.nextPid, hroot]
  · show b.nextPid + 1 = _
    rw [h.nextPid, hnext]
  · rw [hpages, hroot, update_self]
  · intro p hle
    rw [hnext] at hle
    rw [hpages, update_of_ne (by omega), h.fresh p (by omega)]

theorem IndexShows.afterSplit (h : IndexShows s b) :
    IndexShows (s.afterSplit t level sentinel pid newPid)
    (b.afterSplit t level sentinel pid newPid) := by
  have hstack := (h.threads t).stack
  unfold PinnedIndex.afterSplit BTreeIndex.afterSplit
  cases hcase : (s.threads t).stack with
  | nil =>
      rw [hcase] at hstack
      rw [hstack]
      exact h.goto rfl rfl rfl rfl .root
  | cons top stack =>
      rw [hcase] at hstack
      rw [hstack]
      exact h.moved rfl rfl rfl (by simp [PinnedIndex.goto, PinnedIndex.setStack]) (.getNode .inter)

end Relation

/-! ## Sections -/

section Sections

variable {s s' : PinnedIndex} {b : BTreeIndex} {t pid newPid : Nat} {pg : BtreePage}
  {key sentinel : Key}

namespace PinnedIndex

theorem reserveNode_cases (h : s.reserveNode t = .ok (s', newPid)) :
    newPid = s.nextPid ∧ s.nextPid < reserveLimit ∧ s'.pages = s.pages ∧ s'.threads = s.threads ∧
      s'.rootId = s.rootId ∧ s'.nextPid = s.nextPid + 1 := by
  obtain ⟨_, hassert, h⟩ := bind_ok.mp h
  obtain ⟨rfl, rfl⟩ := Prod.mk.inj (Except.ok.inj h)
  exact ⟨rfl, of_decide_eq_true (assertThat_ok.mp hassert), rfl, rfl, rfl, rfl⟩

end PinnedIndex

theorem IndexShows.reserveNode (h : IndexShows s b) (hlimit : s.nextPid < reserveLimit) :
    b.reserveNode = .ok ({ b with nextPid := b.nextPid + 1 }, b.nextPid) :=
  bind_ok.mpr ⟨(), assertThat_ok.mpr (decide_eq_true (by rw [h.nextPid]; exact hlimit)), rfl⟩

theorem IndexShows.push {s₁ : PinnedIndex} (h : IndexShows s b) (hpush : s.push t pid = .ok s₁) :
    s₁ = s.setStack t (pid :: (s.threads t).stack) ∧
      b.push t pid = .ok (b.setStack t (pid :: (s.threads t).stack)) := by
  obtain ⟨_, hassert, hpush⟩ := bind_ok.mp hpush
  refine ⟨(Except.ok.inj hpush).symm, bind_ok.mpr ⟨(), ?_, ?_⟩⟩
  · rw [(h.threads t).stack]
    exact hassert
  · rw [(h.threads t).stack]

theorem IndexShows.drop (h : IndexShows s b) (hs : s.dropStep t pid = .ok s') :
    ∃ b', b.descendStep t pid = .ok b' ∧ IndexShows s' b' := by
  have hop := (h.threads t).op
  have hkey := (PinOp.key_of_index hop).1
  obtain ⟨pg, hget, hs⟩ := bind_ok.mp hs
  have hget' := h.getNode hget
  unfold BTreeIndex.descendStep
  rw [hget', hkey]
  simp only [bind, Except.bind]
  split at hs <;> rename_i hlevel
  · rw [if_pos hlevel]
    cases hcase : (s.threads t).op with
    | insertUnique => rw [hcase] at hop; cases hop
    | get columns =>
        rw [hcase] at hop hs
        rw [← Option.some.inj hop]
        obtain rfl := Except.ok.inj hs
        exact ⟨_, rfl, h.goto rfl rfl rfl rfl (.node .scan)⟩
    | insert columns tid | delete columns tid =>
        rw [hcase] at hop hs
        obtain rfl := Except.ok.inj hs
        have hleaf : ∀ columns, (b.threads t).op ≠ .get columns := fun columns heq => by
          rw [heq] at hop
          cases hop
        rw [← Option.some.inj hop]
        exact ⟨_, rfl, h.goto rfl rfl rfl rfl (.node (.leaf hleaf))⟩
  · rw [if_neg hlevel]
    split at hs <;> rename_i hsplit
    · obtain rfl := Except.ok.inj hs
      exact ⟨_, if_pos hsplit, h.goto rfl rfl rfl rfl (.getNode .drop)⟩
    · obtain ⟨child, hchild, hs⟩ := bind_ok.mp hs
      obtain ⟨s₁, hpush, hs⟩ := bind_ok.mp hs
      obtain ⟨rfl, hpush'⟩ := h.push hpush
      obtain rfl := Except.ok.inj hs
      rw [if_neg hsplit, hchild]
      dsimp only
      rw [hpush']
      refine ⟨_, rfl, h.moved rfl rfl rfl ?_ (.getNode .drop)⟩
      simp [PinnedIndex.goto, PinnedIndex.setStack, PinnedIndex.unpin]

/-- The page of a split and its fresh page are written, and the fresh one is released. -/
theorem IndexShows.halved {s₁ : PinnedIndex} {l r : BtreePage} (h : IndexShows s b)
    (hp : s.pages pid = some pg)
    (hreserve : s.reserveNode t = .ok (s₁, newPid)) (hlevel : l.level = pg.level) :
    newPid = b.nextPid ∧ b.reserveNode = .ok ({ b with nextPid := b.nextPid + 1 }, newPid) ∧
      IndexShows (((s₁.setPage pid l).setPage newPid r).releaseNode newPid)
        (b.splitPages pid l r) := by
  obtain ⟨rfl, hlimit, hpages, hthreads, hroot, hnext⟩ := PinnedIndex.reserveNode_cases hreserve
  refine ⟨h.nextPid.symm, ?_, h.splitPages hp hlevel hlimit ?_ hthreads hroot hnext⟩
  · rw [← h.nextPid]
    exact h.reserveNode hlimit
  · show update (update s₁.pages pid (some l)) s.nextPid (some r) = _
    rw [hpages]

/-- `SplitLeaf`. -/
theorem IndexShows.splitLeaf (h : IndexShows s b) (hp : s.pages pid = some pg)
    (hs : s.splitLeaf t pid pg key = .ok (s', newPid, sentinel)) :
    ∃ b', b.splitLeafStep t pid pg key = .ok (b'.afterSplit t pg.level sentinel pid newPid) ∧
      IndexShows s' b' := by
  obtain ⟨⟨s₁, newPid₁⟩, hreserve, hs⟩ := bind_ok.mp hs
  obtain ⟨⟨l, r, sentinel₁⟩, hsplit, hs⟩ := bind_ok.mp hs
  have hlevel : l.level = pg.level := Layout.split_level hsplit
  obtain ⟨rfl, hrest⟩ := Prod.mk.inj (Except.ok.inj hs)
  obtain ⟨rfl, rfl⟩ := Prod.mk.inj hrest
  obtain ⟨hnew, hreserve', hshows⟩ := h.halved hp hreserve hlevel
  refine ⟨b.splitPages pid l r, bind_ok.mpr ⟨_, hreserve', bind_ok.mpr ⟨_, hsplit, ?_⟩⟩, hshows⟩
  rw [← hlevel, hnew]
  rfl

/-- `SplitInter`. -/
theorem IndexShows.splitInter {value : Nat} (h : IndexShows s b) (hp : s.pages pid = some pg)
    (hs : s.splitInter t pid pg key value = .ok (s', newPid, sentinel)) : ∃ b',
    b.splitInterStep t pid pg key value = .ok (b'.afterSplit t pg.level sentinel pid newPid) ∧
      IndexShows s' b' := by
  obtain ⟨⟨s₁, newPid₁⟩, hreserve, hs⟩ := bind_ok.mp hs
  obtain ⟨⟨l, r, sentinel₁⟩, hsplit, hs⟩ := bind_ok.mp hs
  have hlevel : l.level = pg.level := Layout.split_level hsplit
  obtain ⟨rfl, hrest⟩ := Prod.mk.inj (Except.ok.inj hs)
  obtain ⟨rfl, rfl⟩ := Prod.mk.inj hrest
  obtain ⟨hnew, hreserve', hshows⟩ := h.halved hp hreserve hlevel
  refine ⟨b.splitPages pid l r, bind_ok.mpr ⟨_, hreserve', bind_ok.mpr ⟨_, hsplit, ?_⟩⟩, hshows⟩
  rw [← hlevel, hnew]
  rfl

theorem IndexShows.insert (h : IndexShows s b) (hop : ∀ columns, (b.threads t).op ≠ .get columns)
    (hs : s.insertStep t pid key = .ok s') :
    ∃ b', b.insertStep t pid key = .ok b' ∧ IndexShows s' b' := by
  have hlocked : IndexShows (s.lock t pid) b := h.same rfl rfl rfl rfl
  obtain ⟨pg, hget, hs⟩ := bind_ok.mp hs
  have hget' := hlocked.getNode hget
  have hp := hlocked.page hget
  unfold BTreeIndex.insertStep
  rw [hget']
  simp only [bind, Except.bind]
  split at hs <;> rename_i hsplit
  · rw [if_pos hsplit]
    obtain rfl := Except.ok.inj hs
    exact ⟨_, rfl, h.goto rfl rfl rfl rfl (.getNode (.leaf hop))⟩
  · rw [if_neg hsplit]
    split at hs <;> rename_i hspace
    · rw [if_pos hspace]
      obtain ⟨pg', hins, hs⟩ := bind_ok.mp hs
      rw [hins]
      obtain rfl := Except.ok.inj hs
      exact ⟨_, rfl, (h.setPage hp (BtreeVarlenLayoutLeaf.insert_level hins)).goto rfl
        rfl rfl rfl .done⟩
    · rw [if_neg hspace]
      obtain ⟨⟨s₁, newPid, sentinel⟩, hsplits, hs⟩ := bind_ok.mp hs
      obtain ⟨b₁, hsplits', h₁⟩ := hlocked.splitLeaf hp hsplits
      obtain rfl := Except.ok.inj hs
      have hreleased : IndexShows (s₁.releaseNode pid) b₁ := h₁.same rfl rfl rfl rfl
      exact ⟨_, hsplits', hreleased.afterSplit⟩

theorem IndexShows.delete (h : IndexShows s b) (hop : ∀ columns, (b.threads t).op ≠ .get columns)
    (hs : s.deleteStep t pid key = .ok s') :
    ∃ b', b.deleteStep t pid key = .ok b' ∧ IndexShows s' b' := by
  have hlocked : IndexShows (s.lock t pid) b := h.same rfl rfl rfl rfl
  obtain ⟨pg, hget, hs⟩ := bind_ok.mp hs
  have hget' := hlocked.getNode hget
  have hp := hlocked.page hget
  unfold BTreeIndex.deleteStep
  rw [hget']
  simp only [bind, Except.bind]
  split at hs <;> rename_i hsplit
  · rw [if_pos hsplit]
    obtain rfl := Except.ok.inj hs
    exact ⟨_, rfl, h.goto rfl rfl rfl rfl (.getNode (.leaf hop))⟩
  · rw [if_neg hsplit]
    obtain ⟨pg', hdel, hs⟩ := bind_ok.mp hs
    rw [hdel]
    obtain rfl := Except.ok.inj hs
    exact ⟨_, rfl, (h.setPage hp (BtreeVarlenLayoutLeaf.delete_level hdel)).goto rfl
      rfl rfl rfl .done⟩

theorem IndexShows.inter {value : Nat} (h : IndexShows s b)
    (hs : s.interStep t key value pid = .ok s') :
    ∃ b', b.interStep t key value pid = .ok b' ∧ IndexShows s' b' := by
  have hlocked : IndexShows (s.lock t pid) b := h.same rfl rfl rfl rfl
  obtain ⟨pg, hget, hs⟩ := bind_ok.mp hs
  have hget' := hlocked.getNode hget
  have hp := hlocked.page hget
  unfold BTreeIndex.interStep
  rw [hget']
  simp only [bind, Except.bind]
  split at hs <;> rename_i hsplit
  · rw [if_pos hsplit]
    obtain rfl := Except.ok.inj hs
    exact ⟨_, rfl, h.goto rfl rfl rfl rfl (.getNode .inter)⟩
  · rw [if_neg hsplit]
    split at hs <;> rename_i hspace
    · rw [if_pos hspace]
      obtain ⟨pg', hins, hs⟩ := bind_ok.mp hs
      rw [hins]
      obtain rfl := Except.ok.inj hs
      exact ⟨_, rfl, (h.setPage hp (BtreeVarlenLayoutIntermediate.insert_level hins)).goto rfl
        rfl rfl rfl .done⟩
    · rw [if_neg hspace]
      obtain ⟨⟨s₁, newPid, sentinel⟩, hsplits, hs⟩ := bind_ok.mp hs
      obtain ⟨b₁, hsplits', h₁⟩ := hlocked.splitInter hp hsplits
      obtain rfl := Except.ok.inj hs
      have hreleased : IndexShows (s₁.releaseNode pid) b₁ := h₁.same rfl rfl rfl rfl
      exact ⟨_, hsplits', hreleased.afterSplit⟩

/-- The root section. -/
theorem IndexShows.rootSection {level : Nat} (h : IndexShows s b)
    (hs : s.rootStep t level sentinel pid newPid = .ok s') :
    ∃ b', b.rootStep t level sentinel pid newPid = .ok b' ∧ IndexShows s' b' := by
  unfold PinnedIndex.rootStep at hs
  unfold BTreeIndex.rootStep
  rw [h.rootId]
  split at hs <;> rename_i hroot
  · rw [if_pos hroot]
    obtain ⟨s₁, hcreate, hs⟩ := bind_ok.mp hs
    obtain rfl := Except.ok.inj hs
    obtain ⟨⟨s₂, rootPid⟩, hreserve, hcreate⟩ := bind_ok.mp hcreate
    obtain ⟨rfl, hlimit, hpages, hthreads, -, hnext⟩ := PinnedIndex.reserveNode_cases hreserve
    obtain ⟨root, hroot', hcreate⟩ := bind_ok.mp hcreate
    obtain rfl := Except.ok.inj hcreate
    have hrooted :
        IndexShows ({ s₂.setPage s.nextPid root with rootId := s.nextPid }.releaseNode s.nextPid)
        (b.rooted root) := by
      refine h.rooted hlimit ?_ hthreads rfl hnext
      show update s₂.pages s.nextPid (some root) = _
      rw [hpages]
    refine ⟨_, bind_ok.mpr ⟨b.rooted root, ?_, rfl⟩, hrooted.goto rfl rfl rfl rfl .done⟩
    refine bind_ok.mpr ⟨_, h.reserveNode hlimit, bind_ok.mpr ⟨root, ?_, rfl⟩⟩
    rw [h.nextPid]
    exact hroot'
  · rw [if_neg hroot]
    obtain rfl := Except.ok.inj hs
    exact ⟨_, rfl, h.goto rfl rfl rfl rfl .reloadRoot⟩

/-- A second descent starts: the level of the root is there to be read. -/
theorem IndexShows.reload {dropLevel : Nat} (h : IndexShows s b) :
    ∃ b', b.reloadRootStep t dropLevel sentinel newPid = .ok b' ∧
      IndexShows (s.goto t (.getNode (.redrop dropLevel sentinel newPid s.rootId none))) b' := by
  obtain ⟨pg, hp⟩ := h.root
  have hlt := Nat.lt_of_lt_of_le (h.lt_nextPid hp) h.limit
  have hdefined : s.rootId ≠ undefinedPage := by
    unfold reserveLimit at hlt
    unfold undefinedPage
    omega
  refine ⟨_, bind_ok.mpr ⟨pg, ?_, rfl⟩, h.goto rfl rfl rfl rfl (.getNode ?_)⟩
  · refine bind_ok.mpr ⟨(), assertThat_ok.mpr (decide_eq_true (h.rootId ▸ hdefined)), ?_⟩
    rw [h.rootId, h.pages, hp]
  · rw [h.rootId]
    exact .redropRoot hp

/-- A round of a second descent, whether the level of its page has been read or not. -/
theorem IndexShows.redrop {dropLevel level : Nat} {known : Option Nat} (h : IndexShows s b)
    (hlevel : ∀ pg, s.pages pid = some pg → known.getD pg.level = level)
    (hs : s.redropStep t dropLevel sentinel newPid pid known = .ok s') :
    ∃ b', b.redescendStep t dropLevel sentinel newPid pid level = .ok b' ∧ IndexShows s' b' := by
  obtain ⟨pg, hget, hs⟩ := bind_ok.mp hs
  have hget' := h.getNode hget
  rw [hlevel pg (h.page hget)] at hs
  obtain ⟨_, hassert, hs⟩ := bind_ok.mp hs
  unfold BTreeIndex.redescendStep
  rw [hget']
  simp only [bind, Except.bind]
  rw [hassert]
  dsimp only
  split at hs <;> rename_i hdrop
  · rw [if_pos hdrop]
    obtain ⟨s₁, hpush, hs⟩ := bind_ok.mp hs
    obtain ⟨rfl, hpush'⟩ := h.push hpush
    rw [hpush']
    obtain rfl := Except.ok.inj hs
    -- what was pushed is popped again
    have hpopped : (b.setStack t (pid :: (s.threads t).stack)).setStack t
        ((b.setStack t (pid :: (s.threads t).stack)).threads t).stack.tail = b := by
      rw [← (h.threads t).stack]
      simp [BTreeIndex.setStack]
    refine ⟨_, congrArg (fun b' => Except.ok (b'.goto t (.inter sentinel newPid pid))) hpopped, ?_⟩
    exact h.goto rfl rfl rfl (by simp [PinnedIndex.goto, PinnedIndex.setStack]) (.getNode .inter)
  · rw [if_neg hdrop]
    split at hs <;> rename_i hsplit
    · rw [if_pos hsplit]
      obtain rfl := Except.ok.inj hs
      exact ⟨_, rfl, h.goto rfl rfl rfl rfl (.getNode .redrop)⟩
    · rw [if_neg hsplit]
      obtain ⟨child, hchild, hs⟩ := bind_ok.mp hs
      obtain ⟨s₁, hpush, hs⟩ := bind_ok.mp hs
      obtain ⟨rfl, hpush'⟩ := h.push hpush
      obtain rfl := Except.ok.inj hs
      rw [hchild]
      dsimp only
      rw [hpush']
      refine ⟨_, rfl, h.moved rfl rfl rfl ?_ (.getNode .redrop)⟩
      simp [PinnedIndex.goto, PinnedIndex.setStack, PinnedIndex.unpin]

theorem IndexShows.scan {results : List Nat} (h : IndexShows s b)
    (hs : s.scanStep t pid results = .ok s') :
    ∃ b', b.scanStep t pid results = .ok b' ∧ IndexShows s' b' := by
  have hkey := (PinOp.key_of_index (h.threads t).op).2
  obtain ⟨pg, hget, hs⟩ := bind_ok.mp hs
  have hget' := h.getNode hget
  unfold BTreeIndex.scanStep
  rw [hget', hkey]
  simp only [bind, Except.bind]
  split at hs <;> rename_i hsplit
  · rw [if_pos hsplit]
    obtain rfl := Except.ok.inj hs
    exact ⟨_, rfl, h.goto rfl rfl rfl rfl (.getNode .scan)⟩
  · rw [if_neg hsplit]
    dsimp only at hs
    split at hs <;> rename_i hproceed
    · rw [if_pos hproceed]
      obtain rfl := Except.ok.inj hs
      exact ⟨_, rfl, h.goto rfl rfl rfl rfl .follow⟩
    · rw [if_neg hproceed]
      obtain rfl := Except.ok.inj hs
      exact ⟨_, rfl, h.goto rfl rfl rfl rfl .done⟩

theorem IndexShows.follow {results : List Nat} (h : IndexShows s b)
    (hs : s.followStep t pid results = .ok s') :
    ∃ b', b.followStep t pid results = .ok b' ∧ IndexShows s' b' := by
  obtain ⟨pg, hget, hs⟩ := bind_ok.mp hs
  have hget' := h.getNode hget
  unfold BTreeIndex.followStep
  rw [hget']
  simp only [bind, Except.bind]
  split at hs <;> rename_i hlast
  · rw [if_pos hlast]
    obtain rfl := Except.ok.inj hs
    exact ⟨_, rfl, h.goto rfl rfl rfl rfl .done⟩
  · rw [if_neg hlast]
    obtain rfl := Except.ok.inj hs
    exact ⟨_, rfl, h.goto rfl rfl rfl rfl (.getNode .scan)⟩

/-- The section on a pinned page. -/
theorem IndexShows.nodeSection {n : NodePc} {pc : BtreePc} (h : IndexShows s b)
    (hn : NodeShows s.pages (b.threads t).op n pc) (hs : s.nodeStep t n = .ok s') :
    ∃ b', b.runThread t pc = .ok b' ∧ IndexShows s' b' := by
  cases hn with
  | drop => exact h.drop hs
  | @leaf pid hop =>
      have hkey := (PinOp.key_of_index (h.threads t).op).2
      have hindex := (h.threads t).op
      unfold PinnedIndex.nodeStep at hs
      unfold BTreeIndex.runThread
      dsimp only at hs ⊢
      rw [hkey]
      cases hcase : (s.threads t).op with
      | insert columns tid =>
          rw [hcase] at hindex hs
          rw [← Option.some.inj hindex]
          exact h.insert hop hs
      | delete columns tid =>
          rw [hcase] at hindex hs
          rw [← Option.some.inj hindex]
          exact h.delete hop hs
      | insertUnique => rw [hcase] at hindex; cases hindex
      | get columns =>
          rw [hcase] at hindex
          exact absurd (Option.some.inj hindex).symm (hop columns)
  | @redropRoot dropLevel sentinel newPid pid pg hp =>
      refine h.redrop (fun pg' hp' => ?_) hs
      rw [← Option.some.inj (hp.symm.trans hp')]
      rfl
  | redrop => exact h.redrop (fun _ _ => rfl) hs
  | inter => exact h.inter hs
  | scan => exact h.scan hs

/-- A step of a thread is a step of sections, but for the pin that `GetNode` takes. -/
theorem IndexShows.run {conflict : Nat → Bool} (h : IndexShows s b)
    (hs : s.runThread t conflict (s.threads t).pc = .ok s') :
    IndexShows s' b ∨ ∃ b', b.runThread t (b.threads t).pc = .ok b' ∧ IndexShows s' b' := by
  have hpc := (h.threads t).pc
  generalize (s.threads t).pc = pc at hs hpc
  generalize hold : (b.threads t).pc = pc' at hpc ⊢
  cases hpc with
  | idle => cases hs
  | done => cases hs
  | loadRoot =>
      obtain rfl := Except.ok.inj hs
      refine .inr ⟨_, rfl, h.goto rfl rfl rfl rfl (.getNode ?_)⟩
      rw [h.rootId]
      exact .drop
  | @getNode n _ hn =>
      obtain rfl := Except.ok.inj hs
      have hgoto : IndexShows ((s.pin n.pid).goto t (.node n)) (b.goto t pc') :=
        h.goto rfl rfl rfl rfl (.node hn)
      have hself : b.goto t pc' = b := by simp [BTreeIndex.goto, ← hold]
      exact .inl (hself ▸ hgoto)
  | node hn =>
      unfold PinnedIndex.runThread at hs
      dsimp only at hs
      split at hs
      · exact .inr (h.nodeSection hn hs)
      · cases hs
  | root => exact .inr (h.rootSection hs)
  | reloadRoot =>
      obtain rfl := Except.ok.inj hs
      exact .inr h.reload
  | follow => exact .inr (h.follow hs)

end Sections

/-! ## Runs -/

/-- A return changes one thread. -/
theorem BTreeIndex.finish_acts (b : BTreeIndex) (t : Nat) :
    (b.finish t).pages = b.pages ∧ (b.finish t).rootId = b.rootId ∧
      (b.finish t).nextPid = b.nextPid ∧
      (b.finish t).threads = update b.threads t { b.threads t with pc := .idle } := by
  unfold finish
  dsimp only
  split
  · exact ⟨rfl, rfl, rfl, rfl⟩
  · exact ⟨rfl, rfl, rfl, rfl⟩
  · exact ⟨rfl, rfl, rfl, rfl⟩

variable {s s' : PinnedIndex} {b : BTreeIndex}

theorem indexShows_init (pins : Nat → Nat) :
    IndexShows (PinnedIndex.init pins) BTreeIndex.init where
  pages := rfl
  rootId := rfl
  nextPid := rfl
  threads _ := ⟨rfl, rfl, .idle⟩
  limit := show 2 ≤ reserveLimit by decide
  root := ⟨.initHeader 0 1, rfl⟩
  fresh p hle := by
    have hne : p ≠ 1 := Nat.ne_of_gt (show 2 ≤ p from hle)
    exact update_of_ne hne (some (BtreePage.initHeader 0 1)) fun _ => none

/-- A step is a step of the sections, or it is not seen and changes none of them. -/
theorem IndexShows.step {a : PinAction} {a' : BtreeAction} (h : IndexShows s b)
    (ha : a.index = some a')
    (hs : s.step a = some s') : (a'.seen = none ∧ IndexShows s' b) ∨ ∃ b', b.step a' = some b' ∧
      IndexShows s' b' := by
  cases a with
  | invoke t op =>
      obtain ⟨op', hop, rfl⟩ := Option.map_eq_some_iff.mp ha
      simp only [PinnedIndex.step, Option.ite_none_right_eq_some] at hs
      obtain ⟨hidle, hs⟩ := hs
      obtain rfl := Option.some.inj hs
      have hpc := (h.threads t).pc
      generalize hidle' : (b.threads t).pc = pc' at hpc
      rw [hidle] at hpc
      cases hpc with
      | idle =>
          exact .inr ⟨_, if_pos hidle',
            h.acts rfl rfl rfl rfl rfl rfl rfl rfl ⟨hop, rfl, .loadRoot⟩⟩
  | run t conflicts =>
      obtain rfl := Option.some.inj ha
      simp only [PinnedIndex.step] at hs
      split at hs
      · rename_i hrun
        obtain rfl := Option.some.inj hs
        rcases h.run hrun with hstay | ⟨b', hrun', hgo⟩
        · exact .inl ⟨rfl, hstay⟩
        · exact .inr ⟨b', by simp only [BTreeIndex.step, hrun'], hgo⟩
      · cases hs
  | ret t =>
      obtain rfl := Option.some.inj ha
      simp only [PinnedIndex.step] at hs
      split at hs
      · rename_i hdone
        obtain rfl := Option.some.inj hs
        have hpc := (h.threads t).pc
        generalize hdone' : (b.threads t).pc = pc' at hpc
        rw [hdone] at hpc
        obtain ⟨hpages, hroot, hnext, hthreads⟩ := BTreeIndex.finish_acts b t
        cases hpc with
        | done =>
            refine .inr ⟨b.finish t, by simp only [BTreeIndex.step, hdone'], ?_⟩
            exact h.acts rfl rfl rfl rfl hpages hroot hnext hthreads ⟨(h.threads t).op,
              (h.threads t).stack, .idle⟩
      · cases hs

/-- What a client sees of a step. -/
def PinAction.seen (a : PinAction) : Option (Atomic.Event IndexOp Nat) :=
  a.index.bind BtreeAction.seen

/-- The call is not an `InsertUnique`, and its action meets `E` in the index that shows. -/
def WithoutUnique (E : BTreeIndex → BtreeAction → Prop) (s : PinnedIndex) (a : PinAction) : Prop :=
  ∃ a', a.index = some a' ∧ ∀ b, IndexShows s b → E b a'

/-- To its clients the index with pins and latches is the index of sections: each run is one of the
sections with the same calls and returns, on the same pages and with the same results, and under the
conditions that the run meets. -/
theorem pins_refine {E : BTreeIndex → BtreeAction → Prop} {pins : Nat → Nat} {as : List PinAction}
    (h : (pinSystem pins).Trace (WithoutUnique E) (PinnedIndex.init pins) as s) :
    ∃ bs b, bs.filterMap BtreeAction.seen = as.filterMap PinAction.seen ∧
      btreeSystem.Trace E BTreeIndex.init bs b ∧ IndexShows s b := by
  refine h.matches (fun s a s' b ⟨a', ha, hE⟩ hs hshows => ?_) (indexShows_init pins)
  have hseen : a.seen = a'.seen := by
    unfold PinAction.seen
    rw [ha]
    rfl
  rcases hshows.step ha hs with ⟨hnone, hstay⟩ | ⟨b', hstep, hgo⟩
  · exact ⟨[], b, by rw [hseen, hnone]; rfl, .nil, hstay⟩
  · refine ⟨[a'], b', ?_, .single (hE b hshows) hstep, hgo⟩
    rw [hseen, List.filterMap_cons]
    cases a'.seen with
    | none => rfl
    | some e => rfl

/-- Two threads, of which one splits the root under the other. -/
theorem pins_refine_splitUnderInsert : ∃ s bs b, s.pins 3 = 1 ∧
    bs.filterMap BtreeAction.seen = splitUnderInsert.filterMap PinAction.seen ∧
      btreeSystem.Trace TSys.Always BTreeIndex.init bs b ∧ IndexShows s b := by
  have hrun : ((pinSystem fun _ => 0).exec (fun _ a => a.index.isSome) (PinnedIndex.init fun _ => 0)
      splitUnderInsert).map (fun s => s.pins 3) = some 1 := by
    decide +kernel
  obtain ⟨s, hexec, hpins⟩ := Option.map_eq_some_iff.mp hrun
  have htrace := TSys.Trace.of_exec _ hexec
  have hplain :
      (pinSystem fun _ => 0).Trace (WithoutUnique TSys.Always) (PinnedIndex.init fun _ => 0)
      splitUnderInsert s :=
    htrace.mono fun _ a ha => ⟨_, (Option.some_get ha).symm, fun _ _ => trivial⟩
  obtain ⟨bs, b, hseen, hruns, hshows⟩ := pins_refine hplain
  exact ⟨s, bs, b, hpins, hseen, hruns, hshows⟩

end Db7
