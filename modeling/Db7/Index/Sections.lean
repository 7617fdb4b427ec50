import Db7.Index.Shape

/-!
# What a step of a thread can do

One inversion lemma for each of the step functions: the page that is read, the
branch that is taken and the state afterwards, which is `moved` (only the thread
changes), a page put back, or a page and its new right half (`splitPages`).
-/

namespace Db7

open Lib Lib.BLink Function KeyNormEncoder

namespace BTreeIndex

variable {s s' : BTreeIndex} {t pid : Nat} {key : Key}

/-- Another stack and place for a thread. -/
def moved (s : BTreeIndex) (t : Nat) (stack : List Nat) (pc : BtreePc) : BTreeIndex :=
  { s with threads := update s.threads t { s.threads t with stack := stack, pc := pc } }

theorem goto_eq (pc : BtreePc) : s.goto t pc = s.moved t (s.threads t).stack pc := rfl

theorem setStack_goto (stack : List Nat) (pc : BtreePc) :
    (s.setStack t stack).goto t pc = s.moved t stack pc := by
  simp [setStack, goto, moved]

theorem moved_threads (stack : List Nat) (pc : BtreePc) :
    (s.moved t stack pc).threads t = { s.threads t with stack := stack, pc := pc } := by
  simp [moved]

theorem moved_others (stack : List Nat) (pc : BtreePc) {u : Nat} (hu : u ≠ t) :
    (s.moved t stack pc).threads u = s.threads u := by
  simp [moved, hu]

theorem moved_moved (stack stack' : List Nat) (pc pc' : BtreePc) :
    (s.moved t stack pc).moved t stack' pc' = s.moved t stack' pc' := by
  simp [moved]

theorem push_ok (h : s.push t pid = .ok s') :
    (s.threads t).stack.length < 16 ∧ s' = s.setStack t (pid :: (s.threads t).stack) := by
  obtain ⟨_, hassert, h⟩ := bind_ok.mp h
  exact ⟨by simpa using assertThat_ok.mp hassert, (Except.ok.inj h).symm⟩

theorem reserveNode_ok {newPid : Nat} (h : s.reserveNode = .ok (s', newPid)) :
    s.nextPid < reserveLimit ∧ s' = { s with nextPid := s.nextPid + 1 } ∧ newPid = s.nextPid := by
  obtain ⟨_, hassert, h⟩ := bind_ok.mp h
  obtain ⟨rfl, rfl⟩ := Prod.mk.inj (Except.ok.inj h)
  exact ⟨by simpa using assertThat_ok.mp hassert, rfl, rfl⟩

theorem afterSplit_eq (s : BTreeIndex) (t level pid newPid : Nat) (sentinel : Key) :
    (∃ pc, s.afterSplit t level sentinel pid newPid = s.moved t (s.threads t).stack pc ∧
      (s.threads t).stack = [] ∧ pc = .root level sentinel pid newPid) ∨
    ∃ top rest, (s.threads t).stack = top :: rest ∧
      s.afterSplit t level sentinel pid newPid = s.moved t rest (.inter sentinel newPid top) := by
  unfold afterSplit
  split <;> rename_i hstack
  · exact .inl ⟨_, goto_eq _, hstack, rfl⟩
  · exact .inr ⟨_, _, hstack, setStack_goto _ _⟩

theorem descendStep_cases (hs : s.descendStep t pid = .ok s') : ∃ pg, s.pages pid = some pg ∧
    ((pg.level = 0 ∧ ∃ columns, (s.threads t).op = .get columns ∧
        s' = s.moved t (s.threads t).stack (.scan pid [])) ∨
      (pg.level = 0 ∧ (∀ columns, (s.threads t).op ≠ .get columns) ∧
        s' = s.moved t (s.threads t).stack (.leaf pid)) ∨
      (pg.level ≠ 0 ∧ BtreeVarlenLayoutIntermediate.hasSplit pg (s.threads t).op.key = true ∧
        s' = s.moved t (s.threads t).stack (.descend pg.rlink)) ∨
      (pg.level ≠ 0 ∧ ∃ child,
        BtreeVarlenLayoutIntermediate.get pg (s.threads t).op.key = .ok child ∧
        s' = s.moved t (pid :: (s.threads t).stack) (.descend child))) := by
  obtain ⟨pg, hget, hs⟩ := bind_ok.mp hs
  refine ⟨pg, getNode_ok hget, ?_⟩
  split at hs <;> rename_i hlevel
  · split at hs <;> rename_i hop <;> obtain rfl := Except.ok.inj hs
    · exact .inl ⟨hlevel, _, hop, rfl⟩
    · exact .inr (.inl ⟨hlevel, fun columns => hop columns, rfl⟩)
  · split at hs <;> rename_i hsplit
    · obtain rfl := Except.ok.inj hs
      exact .inr (.inr (.inl ⟨hlevel, hsplit, rfl⟩))
    · obtain ⟨child, hchild, hs⟩ := bind_ok.mp hs
      obtain ⟨s₁, hpush, hs⟩ := bind_ok.mp hs
      obtain ⟨-, rfl⟩ := push_ok hpush
      obtain rfl := Except.ok.inj hs
      exact .inr (.inr (.inr ⟨hlevel, child, hchild, setStack_goto _ _⟩))

theorem insertStep_cases (hs : s.insertStep t pid key = .ok s') : ∃ pg, s.pages pid = some pg ∧
    ((BtreeVarlenLayoutLeaf.hasSplit pg key = true ∧
        s' = s.moved t (s.threads t).stack (.leaf pg.rlink)) ∨
      (¬ BtreeVarlenLayoutLeaf.hasSplit pg key = true ∧
        BtreeVarlenLayoutLeaf.hasSpace pg key = true ∧
        ∃ pg', BtreeVarlenLayoutLeaf.insert pg key = .ok pg' ∧
          s' = (s.setPage pid pg').moved t (s.threads t).stack (.done [])) ∨
      (¬ BtreeVarlenLayoutLeaf.hasSplit pg key = true ∧
        ¬ BtreeVarlenLayoutLeaf.hasSpace pg key = true ∧ s.nextPid < reserveLimit ∧
        ∃ l r sentinel, BtreeVarlenLayoutLeaf.split pg (.initHeader 0 s.nextPid) s.nextPid key =
            .ok (l, r, sentinel) ∧
          s' = (s.splitPages pid l r).afterSplit t l.level sentinel pid s.nextPid)) := by
  obtain ⟨pg, hget, hs⟩ := bind_ok.mp hs
  refine ⟨pg, getNode_ok hget, ?_⟩
  split at hs <;> rename_i hsplit
  · obtain rfl := Except.ok.inj hs
    exact .inl ⟨hsplit, rfl⟩
  · split at hs <;> rename_i hspace
    · obtain ⟨pg', hins, hs⟩ := bind_ok.mp hs
      obtain rfl := Except.ok.inj hs
      exact .inr (.inl ⟨hsplit, hspace, pg', hins, rfl⟩)
    · obtain ⟨⟨s₁, newPid⟩, hreserve, hs⟩ := bind_ok.mp hs
      obtain ⟨hnext, rfl, rfl⟩ := reserveNode_ok hreserve
      obtain ⟨⟨l, r, sentinel⟩, hsplits, hs⟩ := bind_ok.mp hs
      obtain rfl := Except.ok.inj hs
      exact .inr (.inr ⟨hsplit, hspace, hnext, l, r, sentinel, hsplits, rfl⟩)

theorem deleteStep_cases (hs : s.deleteStep t pid key = .ok s') : ∃ pg, s.pages pid = some pg ∧
    ((BtreeVarlenLayoutLeaf.hasSplit pg key = true ∧
        s' = s.moved t (s.threads t).stack (.leaf pg.rlink)) ∨
      (¬ BtreeVarlenLayoutLeaf.hasSplit pg key = true ∧
        ∃ pg', BtreeVarlenLayoutLeaf.delete pg key = .ok pg' ∧
          s' = (s.setPage pid pg').moved t (s.threads t).stack (.done []))) := by
  obtain ⟨pg, hget, hs⟩ := bind_ok.mp hs
  refine ⟨pg, getNode_ok hget, ?_⟩
  split at hs <;> rename_i hsplit
  · obtain rfl := Except.ok.inj hs
    exact .inl ⟨hsplit, rfl⟩
  · obtain ⟨pg', hdel, hs⟩ := bind_ok.mp hs
    obtain rfl := Except.ok.inj hs
    exact .inr ⟨hsplit, pg', hdel, rfl⟩

/-- The state after a new root was put on top. -/
def rooted (s : BTreeIndex) (root : BtreePage) : BTreeIndex :=
  { { s with nextPid := s.nextPid + 1 }.setPage s.nextPid root with rootId := s.nextPid }

theorem rootStep_cases {level newPid : Nat} {sentinel : Key}
    (hs : s.rootStep t level sentinel pid newPid = .ok s') :
    (s.rootId = pid ∧ s.nextPid < reserveLimit ∧ ∃ root,
      BtreeVarlenLayoutIntermediate.createRoot
        (.initHeader (level + 1) s.nextPid) sentinel pid newPid =
        .ok root ∧ s' = (s.rooted root).moved t (s.threads t).stack (.done [])) ∨
    (s.rootId ≠ pid ∧
      s' = s.moved t (s.threads t).stack (.reloadRoot (level + 1) sentinel newPid)) := by
  unfold rootStep at hs
  split at hs <;> rename_i hroot
  · obtain ⟨s₁, hcreate, hs⟩ := bind_ok.mp hs
    obtain rfl := Except.ok.inj hs
    obtain ⟨⟨s₂, rootPid⟩, hreserve, hcreate⟩ := bind_ok.mp hcreate
    obtain ⟨hnext, rfl, rfl⟩ := reserveNode_ok hreserve
    obtain ⟨root, hcreateRoot, hcreate⟩ := bind_ok.mp hcreate
    obtain rfl := Except.ok.inj hcreate
    exact .inl ⟨hroot, hnext, root, hcreateRoot, rfl⟩
  · obtain rfl := Except.ok.inj hs
    exact .inr ⟨hroot, rfl⟩

theorem reloadRootStep_cases {dropLevel newPid : Nat} {sentinel : Key}
    (hs : s.reloadRootStep t dropLevel sentinel newPid = .ok s') :
    ∃ pg, s.pages s.rootId = some pg ∧
    s' = s.moved t (s.threads t).stack
      (.redescend dropLevel sentinel newPid s.rootId pg.level) := by
  obtain ⟨pg, hget, hs⟩ := bind_ok.mp hs
  obtain rfl := Except.ok.inj hs
  exact ⟨pg, getNode_ok hget, rfl⟩

theorem redescendStep_cases {dropLevel newPid level : Nat} {sentinel : Key}
    (hs : s.redescendStep t dropLevel sentinel newPid pid level = .ok s') :
    ∃ pg, s.pages pid = some pg ∧ level = pg.level ∧
      ((level ≤ dropLevel ∧ s' = s.moved t (s.threads t).stack (.inter sentinel newPid pid)) ∨
      (dropLevel < level ∧ BtreeVarlenLayoutIntermediate.hasSplit pg sentinel = true ∧
        s' = s.moved t (s.threads t).stack (.redescend dropLevel sentinel newPid pg.rlink level)) ∨
      (dropLevel < level ∧ ∃ child, BtreeVarlenLayoutIntermediate.get pg sentinel = .ok child ∧
        s' = s.moved t (pid :: (s.threads t).stack)
          (.redescend dropLevel sentinel newPid child (level - 1)))) := by
  obtain ⟨pg, hget, hs⟩ := bind_ok.mp hs
  obtain ⟨_, hassert, hs⟩ := bind_ok.mp hs
  refine ⟨pg, getNode_ok hget, by simpa using assertThat_ok.mp hassert, ?_⟩
  split at hs <;> rename_i hdrop
  · -- what was pushed is popped again
    obtain ⟨s₁, hpush, hs⟩ := bind_ok.mp hs
    obtain ⟨-, rfl⟩ := push_ok hpush
    obtain rfl := Except.ok.inj hs
    refine .inl ⟨hdrop, ?_⟩
    simp [setStack, goto, moved]
  · split at hs <;> rename_i hsplit
    · obtain rfl := Except.ok.inj hs
      exact .inr (.inl ⟨not_le.mp hdrop, hsplit, rfl⟩)
    · obtain ⟨child, hchild, hs⟩ := bind_ok.mp hs
      obtain ⟨s₁, hpush, hs⟩ := bind_ok.mp hs
      obtain ⟨-, rfl⟩ := push_ok hpush
      obtain rfl := Except.ok.inj hs
      exact .inr (.inr ⟨not_le.mp hdrop, child, hchild, setStack_goto _ _⟩)

theorem interStep_cases {value : Nat} (hs : s.interStep t key value pid = .ok s') :
    ∃ pg, s.pages pid = some pg ∧
    ((BtreeVarlenLayoutIntermediate.hasSplit pg key = true ∧
        s' = s.moved t (s.threads t).stack (.inter key value pg.rlink)) ∨
      (¬ BtreeVarlenLayoutIntermediate.hasSplit pg key = true ∧
        BtreeVarlenLayoutIntermediate.hasSpace pg key = true ∧
        ∃ pg', BtreeVarlenLayoutIntermediate.insert pg key value = .ok pg' ∧
          s' = (s.setPage pid pg').moved t (s.threads t).stack (.done [])) ∨
      (¬ BtreeVarlenLayoutIntermediate.hasSplit pg key = true ∧
        ¬ BtreeVarlenLayoutIntermediate.hasSpace pg key = true ∧ s.nextPid < reserveLimit ∧
        ∃ l r sentinel, BtreeVarlenLayoutIntermediate.split pg (.initHeader pg.level s.nextPid)
            s.nextPid key value = .ok (l, r, sentinel) ∧
          s' = (s.splitPages pid l r).afterSplit t l.level sentinel pid s.nextPid)) := by
  obtain ⟨pg, hget, hs⟩ := bind_ok.mp hs
  refine ⟨pg, getNode_ok hget, ?_⟩
  split at hs <;> rename_i hsplit
  · obtain rfl := Except.ok.inj hs
    exact .inl ⟨hsplit, rfl⟩
  · split at hs <;> rename_i hspace
    · obtain ⟨pg', hins, hs⟩ := bind_ok.mp hs
      obtain rfl := Except.ok.inj hs
      exact .inr (.inl ⟨hsplit, hspace, pg', hins, rfl⟩)
    · obtain ⟨⟨s₁, newPid⟩, hreserve, hs⟩ := bind_ok.mp hs
      obtain ⟨hnext, rfl, rfl⟩ := reserveNode_ok hreserve
      obtain ⟨⟨l, r, sentinel⟩, hsplits, hs⟩ := bind_ok.mp hs
      obtain rfl := Except.ok.inj hs
      exact .inr (.inr ⟨hsplit, hspace, hnext, l, r, sentinel, hsplits, rfl⟩)

theorem scanStep_cases {results : List Nat} (hs : s.scanStep t pid results = .ok s') :
    ∃ pg, s.pages pid = some pg ∧
    ((BtreeVarlenLayoutLeaf.hasSplit pg (s.threads t).op.key = true ∧
        s' = s.moved t (s.threads t).stack (.scan pg.rlink results)) ∨
      (¬ BtreeVarlenLayoutLeaf.hasSplit pg (s.threads t).op.key = true ∧
        (BtreeVarlenLayoutLeaf.get pg (s.threads t).op.key).2 = true ∧
        s' = s.moved t (s.threads t).stack
          (.follow pid (results ++ (BtreeVarlenLayoutLeaf.get pg (s.threads t).op.key).1))) ∨
      (¬ BtreeVarlenLayoutLeaf.hasSplit pg (s.threads t).op.key = true ∧
        ¬ (BtreeVarlenLayoutLeaf.get pg (s.threads t).op.key).2 = true ∧
        s' = s.moved t (s.threads t).stack
          (.done (results ++ (BtreeVarlenLayoutLeaf.get pg (s.threads t).op.key).1)))) := by
  obtain ⟨pg, hget, hs⟩ := bind_ok.mp hs
  refine ⟨pg, getNode_ok hget, ?_⟩
  split at hs <;> rename_i hsplit
  · obtain rfl := Except.ok.inj hs
    exact .inl ⟨hsplit, rfl⟩
  · dsimp only at hs
    split at hs <;> rename_i hproceed <;> obtain rfl := Except.ok.inj hs
    · exact .inr (.inl ⟨hsplit, hproceed, rfl⟩)
    · exact .inr (.inr ⟨hsplit, hproceed, rfl⟩)

theorem followStep_cases {results : List Nat} (hs : s.followStep t pid results = .ok s') :
    ∃ pg, s.pages pid = some pg ∧
    ((pg.rlink = undefinedPage ∧ s' = s.moved t (s.threads t).stack (.done results)) ∨
      (pg.rlink ≠ undefinedPage ∧
        s' = s.moved t (s.threads t).stack (.scan pg.rlink results))) := by
  obtain ⟨pg, hget, hs⟩ := bind_ok.mp hs
  refine ⟨pg, getNode_ok hget, ?_⟩
  split at hs <;> rename_i hlink <;> obtain rfl := Except.ok.inj hs
  · exact .inl ⟨hlink, rfl⟩
  · exact .inr ⟨hlink, rfl⟩

end BTreeIndex

end Db7
