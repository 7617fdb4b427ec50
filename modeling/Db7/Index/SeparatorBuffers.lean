import Db7.Index.PinBalance

/-!
# Where the bytes of a separator are

A split copies its sentinel into a buffer (`CopyKey`), and the `Key` that goes up
points into it. The buffer belongs to a `sentinel_unique`: that of `InsertInternal`
lives until the insert returns, that of `PropagateInsert` is a local of the round that
split an inner page and is gone before the next round. Here the index of
`Db7.Index.NodePins`, which hands keys on by value, gets a heap of these buffers: a
section that uses the key looks it up, and where there is no buffer the thread has no
next step.

* **look-ups** (`separators_present`): as long as no round follows one that has split an
  inner page, every use finds the sentinel that the split below returned; and a round
  that does follow one has no buffer;
* **by value** (`index_step`): where that holds, the pointers change nothing.
-/

namespace Db7

open Lib Function KeyNormEncoder PinnedIndex

namespace PinPc

/-- The key that the thread carries up. -/
def separator : PinPc → Option Key
  | getNode (.inter key _ _) | node (.inter key _ _) | getNode (.redrop _ key _ _ _)
  | node (.redrop _ key _ _ _) | root _ key _ _ | reloadRoot _ key _ => some key
  | _ => none

/-- The next section uses it: `GoRightInter`, `HasSpace`, `Insert` and `Split` on an
inner page, `DropToLevel`, `CreateNewRoot`. -/
def usesKey : PinPc → Bool
  | node (.inter ..) | node (.redrop ..) | root .. => true
  | _ => false

/-- The same place with other bytes for the key. -/
def withKey (bytes : Key) : PinPc → PinPc
  | node (.inter _ value pid) => node (.inter bytes value pid)
  | node (.redrop dropLevel _ newPid pid level) => node (.redrop dropLevel bytes newPid pid level)
  | root level _ pid newPid => root level bytes pid newPid
  | pc => pc

/-- At an inner page, on the way to `HasSpace`. -/
def inRound : PinPc → Bool
  | getNode (.inter ..) | node (.inter ..) => true
  | _ => false

theorem withKey_self {pc : PinPc} {key : Key} (h : pc.separator = some key) :
    pc.withKey key = pc := by
  unfold separator at h
  split at h <;> simp_all [withKey]

theorem separator_of_usesKey {pc : PinPc} (h : pc.usesKey = true) :
    ∃ key, pc.separator = some key := by
  unfold usesKey at h
  split at h <;> simp_all [separator]

end PinPc

/-- The local variables of one insert: the two `sentinel_unique`s while they are in
scope, and where `key.data` points. `returned` is the sentinel of its last split; no step
reads it. -/
structure SeparatorVars where
  leafUnique : Option Nat
  interUnique : Option Nat
  data : Nat
  returned : Key

/-- The index and the separators' buffers. -/
structure BufferedIndex where
  index : PinnedIndex
  buffers : Nat → Option Key
  nextBuffer : Nat
  vars : Nat → SeparatorVars

namespace PinnedIndex

/-- The section on an inner page neither goes right nor finds space. -/
def splitsInter (s : PinnedIndex) (pid : Nat) (key : Key) : Bool :=
  (s.pages pid).any fun pg =>
    !BtreeVarlenLayoutIntermediate.hasSplit pg key && !BtreeVarlenLayoutIntermediate.hasSpace pg key

/-- `level <= drop_level` in `DropToLevel`. -/
def dropped (s : PinnedIndex) (dropLevel pid : Nat) (level : Option Nat) : Bool :=
  (s.pages pid).any fun pg => decide (level.getD pg.level ≤ dropLevel)

/-- The sentinel that a section has got from `SplitLeaf` or `SplitInter`. -/
def split (s : PinnedIndex) (pc pc' : PinPc) : Option (Layout × Key) :=
  match pc with
  | .node (.leaf _) | .insertUnique .. => pc'.separator.map fun sentinel => (.leaf, sentinel)
  | .node (.inter key _ pid) =>
      if s.splitsInter pid key then pc'.separator.map fun sentinel => (.inter, sentinel) else none
  | _ => none

end PinnedIndex

namespace BufferedIndex

/-- Where a thread is. -/
def pc (s : BufferedIndex) (t : Nat) : PinPc := (s.index.threads t).pc

/-- `CopyKey`: the buffer belongs to the `sentinel_unique` of the caller. -/
def copyKey (s : BufferedIndex) (t : Nat) (lay : Layout) (sentinel : Key) : BufferedIndex :=
  let vars := { s.vars t with data := s.nextBuffer, returned := sentinel }
  { s with
    buffers := update s.buffers s.nextBuffer (some sentinel)
    nextBuffer := s.nextBuffer + 1
    vars := update s.vars t (match lay with
      | .leaf => { vars with leafUnique := some s.nextBuffer }
      | .inter => { vars with interUnique := some s.nextBuffer }) }

/-- The destructor of a `unique_ptr`. -/
def free (buffers : Nat → Option Key) : Option Nat → Nat → Option Key
  | none => buffers
  | some b => update buffers b none

/-- The body of the loop of `PropagateInsert` is over. -/
def endRound (s : BufferedIndex) (t : Nat) : BufferedIndex :=
  { s with
    buffers := free s.buffers (s.vars t).interUnique
    vars := update s.vars t { s.vars t with interUnique := none } }

/-- `InsertInternal` returns. -/
def endInsert (s : BufferedIndex) (t : Nat) : BufferedIndex :=
  { s with
    buffers := free s.buffers (s.vars t).leafUnique
    vars := update s.vars t { s.vars t with leafUnique := none } }

/-- What a split copies. -/
def copied (s : BufferedIndex) (t : Nat) : Option (Layout × Key) → BufferedIndex
  | none => s
  | some (lay, sentinel) => s.copyKey t lay sentinel

/-- The buffers after a section of thread `t`, which was at `pc`. -/
def after (s : BufferedIndex) (t : Nat) (pc : PinPc) (index : PinnedIndex) : BufferedIndex :=
  let pc' := (index.threads t).pc
  let s' := { s with index := index }.copied t (s.index.split pc pc')
  match pc' with
  | .getNode (.inter ..) => s'.endRound t
  | .done .. => (s'.endRound t).endInsert t
  | _ => s'

/-- Where the thread is, with the bytes to which its key points. -/
def read (s : BufferedIndex) (t : Nat) : Option PinPc :=
  if (s.pc t).usesKey then (s.buffers (s.vars t).data).map fun bytes => (s.pc t).withKey bytes
  else some (s.pc t)

def step (s : BufferedIndex) : PinAction → Option BufferedIndex
  | .invoke t op => (s.index.step (.invoke t op)).map fun index => { s with index := index }
  | .ret t => (s.index.step (.ret t)).map fun index => { s with index := index }
  | .run t conflicts =>
      (s.read t).bind fun pc =>
        match s.index.runThread t (fun tid => conflicts.contains tid) pc with
        | .ok index => some (s.after t pc index)
        | .error _ => none

/-- An index as whole calls have left it. -/
def Init (s : BufferedIndex) : Prop :=
  (∀ t, s.pc t = .idle) ∧ ∀ t, (s.vars t).leafUnique = none ∧ (s.vars t).interUnique = none

/-- After a round that has split an inner page another one follows. -/
def goesOn (s : BufferedIndex) : PinAction → Bool
  | .run t _ =>
      match s.pc t with
      | .node (.inter key _ pid) =>
          s.index.splitsInter pid key && !(s.index.threads t).stack.isEmpty
      | .node (.redrop dropLevel _ _ pid level) =>
          (s.vars t).interUnique.isSome && s.index.dropped dropLevel pid level
      | _ => false
  | _ => false

/-- A split of an inner page is the last round of its insert. -/
def LastRound (s : BufferedIndex) (a : PinAction) : Prop := s.goesOn a = false

instance (s : BufferedIndex) (a : PinAction) : Decidable (LastRound s a) :=
  inferInstanceAs (Decidable (_ = false))

end BufferedIndex

/-- The index with the buffers as a transition system. -/
def bufferedSystem : TSys BufferedIndex PinAction := ⟨BufferedIndex.Init, BufferedIndex.step⟩

/-! ## What a section does to the key -/

namespace PinnedIndex

/-- Thread `t` goes from `pc` to another place. -/
inductive Moves (s : PinnedIndex) (t : Nat) (pc : PinPc) : PinPc → Prop
  | plain {pc'} : pc.separator = none → pc'.separator = none → Moves s t pc pc'
  | finish {success results} : pc.redropping = false →
      (∀ key value pid, pc = .node (.inter key value pid) → s.splitsInter pid key = false) →
      Moves s t pc (.done success results)
  | splitLeaf {pc' sentinel} : pc.separator = none → pc'.separator = some sentinel →
      s.split pc pc' = some (.leaf, sentinel) → Moves s t pc pc'
  | splitRoot {key value pid level sentinel newPid} : pc = .node (.inter key value pid) →
      s.splitsInter pid key = true → (s.threads t).stack = [] →
      Moves s t pc (.root level sentinel pid newPid)
  | splitOn {key value pid sentinel newPid top} : pc = .node (.inter key value pid) →
      s.splitsInter pid key = true → (s.threads t).stack ≠ [] →
      Moves s t pc (.getNode (.inter sentinel newPid top))
  | carry {pc' key} : pc.separator = some key → pc'.separator = some key → s.split pc pc' = none →
      (pc'.inRound = true → pc.inRound = true ∨ ∃ dropLevel newPid pid level,
        pc = .node (.redrop dropLevel key newPid pid level) ∧
          s.dropped dropLevel pid level = true) →
      (∀ dropLevel newPid pid level, pc = .node (.redrop dropLevel key newPid pid level) →
        s.dropped dropLevel pid level = true → pc' = .getNode (.inter key newPid pid)) →
      Moves s t pc pc'

section Moves

variable {s s' s₁ : PinnedIndex} {t pid : Nat} {pc : PinPc} {key : Key} {value : Nat}
  {conflict : Nat → Bool}

theorem getData_ok {pg : BtreePage} (h : s.getData pid = .ok pg) : s.pages pid = some pg := by
  obtain ⟨_, -, h⟩ := bind_ok.mp h
  split at h
  · rename_i hpages
    rw [hpages, Except.ok.inj h]
  · exact absurd h (by simp)

/-- The place after a split. -/
theorem pc_afterSplit (s : PinnedIndex) (t level : Nat) (sentinel : Key) (pid newPid : Nat) :
    (s.threads t).stack = [] ∧ ((s.afterSplit t level sentinel pid newPid).threads t).pc =
        .root level sentinel pid newPid ∨
      (s.threads t).stack ≠ [] ∧ ∃ top, ((s.afterSplit t level sentinel pid newPid).threads t).pc =
        .getNode (.inter sentinel newPid top) := by
  unfold afterSplit
  cases hstack : (s.threads t).stack with
  | nil => exact .inl ⟨rfl, goto_pc ..⟩
  | cons top stack => exact .inr ⟨by simp, top, goto_pc ..⟩

theorem moves_inter (h : s.interStep t key value pid = .ok s') :
    Moves s t (.node (.inter key value pid)) (s'.threads t).pc := by
  obtain ⟨pg, hdata, h⟩ := bind_ok.mp h
  have hpages : s.pages pid = some pg := getData_ok hdata
  have hsplits : ∀ b, (!BtreeVarlenLayoutIntermediate.hasSplit pg key &&
      !BtreeVarlenLayoutIntermediate.hasSpace pg key) = b → s.splitsInter pid key = b := by
    intro b hb
    unfold splitsInter
    rw [hpages]
    exact hb
  split at h <;> rename_i hsplit
  · -- `GoRightInter`
    obtain rfl := Except.ok.inj h
    rw [goto_pc]
    refine .carry rfl rfl ?_ (fun _ => .inl rfl) (by simp)
    simp [PinnedIndex.split, hsplits false (by simp [hsplit])]
  · split at h <;> rename_i hspace
    · obtain ⟨pg', -, h⟩ := bind_ok.mp h
      obtain rfl := Except.ok.inj h
      rw [goto_pc]
      refine .finish rfl fun key' value' pid' hpc => ?_
      cases hpc
      exact hsplits false (by simp [hspace])
    · obtain ⟨⟨s₂, newPid, sentinel⟩, hs₂, h⟩ := bind_ok.mp h
      obtain rfl := Except.ok.inj h
      have hfull := hsplits true (by simp [hsplit, hspace])
      have hstack : ((s₂.releaseNode pid).threads t).stack = (s.threads t).stack := by
        rw [releaseNode_threads, (splitInter_ok hs₂).2.1]
        rfl
      rcases pc_afterSplit (s₂.releaseNode pid) t pg.level sentinel pid newPid with
        ⟨hnil, hpc⟩ | ⟨hcons, top, hpc⟩
      · rw [hpc]
        exact .splitRoot rfl hfull (hstack ▸ hnil)
      · rw [hpc]
        exact .splitOn rfl hfull (hstack ▸ hcons)

/-- A leaf has been split: at the root section or at the page above. -/
theorem moves_afterSplit {level newPid : Nat} {sentinel : Key} (hnone : pc.separator = none)
    (hpc : ∀ pc', s.split pc pc' = pc'.separator.map fun k => (.leaf, k)) :
    Moves s t pc ((s₁.afterSplit t level sentinel pid newPid).threads t).pc := by
  rcases pc_afterSplit s₁ t level sentinel pid newPid with ⟨-, h⟩ | ⟨-, top, h⟩ <;> rw [h]
  · exact .splitLeaf hnone rfl (hpc _)
  · exact .splitLeaf hnone rfl (hpc _)

theorem moves_insert (h : s.insertStep t pid key = .ok s') :
    Moves s t (.node (.leaf pid)) (s'.threads t).pc := by
  obtain ⟨pg, -, h⟩ := bind_ok.mp h
  split at h
  · obtain rfl := Except.ok.inj h
    exact .plain rfl (by rw [goto_pc]; rfl)
  · split at h
    · obtain ⟨pg', -, h⟩ := bind_ok.mp h
      obtain rfl := Except.ok.inj h
      exact .plain rfl (by rw [goto_pc]; rfl)
    · obtain ⟨⟨s₂, newPid, sentinel⟩, -, h⟩ := bind_ok.mp h
      obtain rfl := Except.ok.inj h
      exact moves_afterSplit rfl fun _ => rfl

theorem moves_insertUnique {page : Nat} {visited : List Nat}
    (h : s.insertUniqueStep t page visited = .ok s') :
    Moves s t (.insertUnique page visited) (s'.threads t).pc := by
  obtain ⟨pg, -, h⟩ := bind_ok.mp h
  split at h
  · obtain ⟨pg', -, h⟩ := bind_ok.mp h
    obtain rfl := Except.ok.inj h
    exact .plain rfl (by rw [goto_pc]; rfl)
  · obtain ⟨⟨s₂, newPid, sentinel⟩, -, h⟩ := bind_ok.mp h
    obtain rfl := Except.ok.inj h
    exact moves_afterSplit rfl fun _ => rfl

theorem moves_root {level newPid : Nat} (h : s.rootStep t level key pid newPid = .ok s') :
    Moves s t (.root level key pid newPid) (s'.threads t).pc := by
  unfold rootStep at h
  split at h
  · obtain ⟨s₂, -, h⟩ := bind_ok.mp h
    obtain rfl := Except.ok.inj h
    rw [goto_pc]
    exact .finish rfl (by simp)
  · obtain rfl := Except.ok.inj h
    rw [goto_pc]
    exact .carry rfl rfl rfl (by simp [PinPc.inRound]) (by simp)

theorem moves_redrop {dropLevel newPid : Nat} {level : Option Nat}
    (h : s.redropStep t dropLevel key newPid pid level = .ok s') :
    Moves s t (.node (.redrop dropLevel key newPid pid level)) (s'.threads t).pc := by
  obtain ⟨pg, hdata, h⟩ := bind_ok.mp h
  obtain ⟨_, -, h⟩ := bind_ok.mp h
  have hdropped : s.dropped dropLevel pid level = decide (level.getD pg.level ≤ dropLevel) := by
    unfold dropped
    rw [getData_ok hdata]
    rfl
  -- where the loop goes on it has not come to the level
  have hon : ∀ {pc'}, ¬ level.getD pg.level ≤ dropLevel → ∀ dropLevel' newPid' pid' level',
      PinPc.node (.redrop dropLevel key newPid pid level) =
        .node (.redrop dropLevel' key newPid' pid' level') →
        s.dropped dropLevel' pid' level' = true →
          pc' = PinPc.getNode (.inter key newPid' pid') := by
    intro pc' hlevel dropLevel' newPid' pid' level' hpc hd
    cases hpc
    rw [hdropped] at hd
    exact absurd (of_decide_eq_true hd) hlevel
  split at h <;> rename_i hlevel
  · obtain ⟨s₂, -, h⟩ := bind_ok.mp h
    obtain rfl := Except.ok.inj h
    rw [goto_pc]
    refine .carry rfl rfl rfl (fun _ => .inr ⟨dropLevel, newPid, pid, level, rfl, ?_⟩) ?_
    · rw [hdropped]
      exact decide_eq_true hlevel
    · intro dropLevel' newPid' pid' level' hpc _
      cases hpc
      rfl
  · split at h
    · obtain rfl := Except.ok.inj h
      rw [goto_pc]
      exact .carry rfl rfl rfl (by simp [PinPc.inRound]) (hon hlevel)
    · obtain ⟨child, -, h⟩ := bind_ok.mp h
      obtain ⟨s₂, -, h⟩ := bind_ok.mp h
      obtain rfl := Except.ok.inj h
      rw [goto_pc]
      exact .carry rfl rfl rfl (by simp [PinPc.inRound]) (hon hlevel)

/-- A section that does not carry a key up, and does not begin to. -/
theorem plain_drop (h : s.dropStep t pid = .ok s') : (s'.threads t).pc.separator = none := by
  obtain ⟨pg, -, h⟩ := bind_ok.mp h
  split at h
  · split at h <;> obtain rfl := Except.ok.inj h <;> rw [goto_pc] <;> rfl
  · split at h
    · obtain rfl := Except.ok.inj h
      rw [goto_pc]
      rfl
    · obtain ⟨child, -, h⟩ := bind_ok.mp h
      obtain ⟨s₂, -, h⟩ := bind_ok.mp h
      obtain rfl := Except.ok.inj h
      rw [goto_pc]
      rfl

theorem plain_delete (h : s.deleteStep t pid key = .ok s') :
    (s'.threads t).pc.separator = none := by
  obtain ⟨pg, -, h⟩ := bind_ok.mp h
  split at h
  · obtain rfl := Except.ok.inj h
    rw [goto_pc]
    rfl
  · obtain ⟨pg', -, h⟩ := bind_ok.mp h
    obtain rfl := Except.ok.inj h
    rw [goto_pc]
    rfl

theorem plain_unique (h : s.uniqueStep t pid = .ok s') : (s'.threads t).pc.separator = none := by
  obtain ⟨pg, -, h⟩ := bind_ok.mp h
  split at h <;> obtain rfl := Except.ok.inj h <;> rw [goto_pc] <;> rfl

theorem plain_check {visited : List Nat} {insertPage : Option Nat} {search : Bool}
    (h : s.checkStep t pid visited insertPage search conflict = .ok s') :
    (s'.threads t).pc.separator = none := by
  obtain ⟨pg, -, h⟩ := bind_ok.mp h
  split at h
  · obtain rfl := Except.ok.inj h
    rw [goto_pc]
    rfl
  · dsimp only at h
    generalize (if insertPage = none ∧
      ¬ BtreeVarlenLayoutLeaf.hasSplit pg (s.threads t).op.key = true then some pid
      else insertPage) = page at h
    split at h
    · obtain rfl := Except.ok.inj h
      rw [goto_pc]
      rfl
    · split at h
      · obtain rfl := Except.ok.inj h
        rw [goto_pc]
        rfl
      · exact absurd h (by simp)

theorem plain_scan {results : List Nat} (h : s.scanStep t pid results = .ok s') :
    (s'.threads t).pc.separator = none := by
  obtain ⟨pg, -, h⟩ := bind_ok.mp h
  split at h
  · obtain rfl := Except.ok.inj h
    rw [goto_pc]
    rfl
  · dsimp only at h
    split at h <;> obtain rfl := Except.ok.inj h <;> rw [goto_pc] <;> rfl

theorem plain_follow {results : List Nat} (h : s.followStep t pid results = .ok s') :
    (s'.threads t).pc.separator = none := by
  obtain ⟨pg, -, h⟩ := bind_ok.mp h
  split at h <;> obtain rfl := Except.ok.inj h <;> rw [goto_pc] <;> rfl

theorem moves_node {n : NodePc} (h : s.nodeStep t n = .ok s') :
    Moves s t (.node n) (s'.threads t).pc := by
  cases n with
  | drop pid => exact .plain rfl (plain_drop h)
  | leaf pid =>
      unfold nodeStep at h
      dsimp only at h
      split at h
      · exact .plain rfl (plain_delete h)
      · exact moves_insert h
  | unique pid => exact .plain rfl (plain_unique h)
  | crab pid visited insertPage =>
      obtain rfl := Except.ok.inj h
      exact .plain rfl (by rw [goto_pc]; rfl)
  | redrop dropLevel sentinel newPid pid level => exact moves_redrop h
  | inter sentinel value pid => exact moves_inter h
  | scan pid results => exact .plain rfl (plain_scan h)

/-- A page is pinned: the thread goes on with the key that it has. -/
theorem moves_getNode {n : NodePc} : Moves s t (.getNode n) (.node n) := by
  cases n with
  | inter key value pid => exact .carry rfl rfl rfl (fun _ => .inl rfl) (by simp)
  | redrop dropLevel key newPid pid level =>
      exact .carry rfl rfl rfl (by simp [PinPc.inRound]) (by simp)
  | drop | leaf | unique | crab | scan => exact .plain rfl rfl

theorem moves_runThread (h : s.runThread t conflict pc = .ok s') :
    Moves s t pc (s'.threads t).pc := by
  cases pc with
  | idle => exact absurd h (by simp [runThread])
  | done success results => exact absurd h (by simp [runThread])
  | loadRoot =>
      obtain rfl := Except.ok.inj h
      exact .plain rfl (by rw [goto_pc]; rfl)
  | getNode n =>
      obtain rfl := Except.ok.inj h
      rw [goto_pc]
      exact moves_getNode
  | node n =>
      unfold runThread at h
      dsimp only at h
      split at h
      · exact moves_node h
      · exact absurd h (by simp)
  | check pid visited insertPage search => exact .plain rfl (plain_check h)
  | insertUnique page visited => exact moves_insertUnique h
  | root level sentinel pid newPid => exact moves_root h
  | reloadRoot dropLevel sentinel newPid =>
      obtain rfl := Except.ok.inj h
      rw [goto_pc]
      exact .carry rfl rfl rfl (by simp [PinPc.inRound]) (by simp)
  | follow pid results => exact .plain rfl (plain_follow h)

/-- A section of `t` leaves the other threads where they are. -/
theorem others_runThread (h : s.runThread t conflict pc = .ok s') {u : Nat} (hu : u ≠ t) :
    s'.threads u = s.threads u := by
  rcases run_cases h with ⟨n, -, rfl⟩ | ⟨dropLevel, sentinel, newPid, pid, level, -, -, -,
    hothers, -⟩ | hgives
  · exact goto_others _ _ _ hu
  · exact hothers u hu
  · exact hgives.others u hu

end Moves

end PinnedIndex

namespace BufferedIndex

/-! ## Who owns which buffer -/

/-- The buffer belongs to a `sentinel_unique` of thread `t`. -/
def Owns (s : BufferedIndex) (t b : Nat) : Prop :=
  (s.vars t).leafUnique = some b ∨ (s.vars t).interUnique = some b

/-- Every buffer has one owner. -/
structure Owned (s : BufferedIndex) : Prop where
  below : ∀ t b, s.Owns t b → b < s.nextBuffer
  apart : ∀ t u b, s.Owns t b → s.Owns u b → t = u
  scopes : ∀ t b, (s.vars t).leafUnique = some b → (s.vars t).interUnique ≠ some b

/-- The other threads keep their variables and the buffers that they own. -/
structure Frame (s s' : BufferedIndex) (t : Nat) : Prop where
  vars : ∀ u, u ≠ t → s'.vars u = s.vars u
  buffers : ∀ u b, u ≠ t → s.Owns u b → s'.buffers b = s.buffers b

/-- The key that a thread carries up is in the buffer that belongs to the innermost scope. -/
structure Held (s : BufferedIndex) (t : Nat) (pc : PinPc) : Prop where
  carried : ∀ key, pc.separator = some key → (s.vars t).returned = key ∧
    s.buffers (s.vars t).data = some key ∧ ((s.vars t).interUnique = some (s.vars t).data ∨
      (s.vars t).interUnique = none ∧ (s.vars t).leafUnique = some (s.vars t).data)
  between : pc.separator = none → (s.vars t).leafUnique = none ∧ (s.vars t).interUnique = none
  round : pc.inRound = true → (s.vars t).interUnique = none

/-- The invariant of the buffers. -/
structure Inv (s : BufferedIndex) : Prop where
  owned : s.Owned
  held : ∀ t, s.Held t (s.pc t)

section Scopes

variable {s s' s'' : BufferedIndex} {t u : Nat} {pc pc' : PinPc} {key : Key}

theorem Held.owns (h : s.Held t pc) (hkey : pc.separator = some key) :
    s.Owns t (s.vars t).data := by
  obtain ⟨-, -, hin | ⟨-, hleaf⟩⟩ := h.carried key hkey
  · exact .inr hin
  · exact .inl hleaf

theorem Frame.refl : s.Frame s t := ⟨fun _ _ => rfl, fun _ _ _ _ => rfl⟩

theorem Frame.trans (h : s.Frame s' t) (h' : s'.Frame s'' t) : s.Frame s'' t where
  vars u hu := (h'.vars u hu).trans (h.vars u hu)
  buffers u b hu hb := by
    have hb' : s'.Owns u b := by
      unfold Owns
      rw [h.vars u hu]
      exact hb
    exact (h'.buffers u b hu hb').trans (h.buffers u b hu hb)

/-- What another thread holds it goes on to hold. -/
theorem Frame.held (h : s.Frame s' t) (hu : u ≠ t) (hheld : s.Held u pc) : s'.Held u pc := by
  refine ⟨fun key hkey => ?_, fun hnone => ?_, fun hround => ?_⟩
  · rw [h.vars u hu, h.buffers u _ hu (hheld.owns hkey)]
    exact hheld.carried key hkey
  · rw [h.vars u hu]
    exact hheld.between hnone
  · rw [h.vars u hu]
    exact hheld.round hround

theorem free_apply (buffers : Nat → Option Key) (o : Option Nat) (b : Nat) :
    free buffers o b = if o = some b then none else buffers b := by
  cases o with
  | none => simp [free]
  | some a =>
      by_cases hab : a = b
      · simp [free, hab]
      · simp [free, hab, Ne.symm hab]

/-- New variables of one thread, which owns no more than it did and what is fresh. -/
theorem Owned.setVars (hi : s.Owned) {v : SeparatorVars} (hvars : s'.vars = update s.vars t v)
    (hnext : s.nextBuffer ≤ s'.nextBuffer)
    (hv : ∀ b, v.leafUnique = some b ∨ v.interUnique = some b →
      s.Owns t b ∨ b = s.nextBuffer ∧ s.nextBuffer < s'.nextBuffer)
    (hscopes : ∀ b, v.leafUnique = some b → v.interUnique ≠ some b) : s'.Owned := by
  have hself : ∀ b, s'.Owns t b → s.Owns t b ∨ b = s.nextBuffer ∧ s.nextBuffer < s'.nextBuffer := by
    intro b hb
    refine hv b ?_
    simpa [Owns, hvars] using hb
  have hother : ∀ u b, u ≠ t → s'.Owns u b → s.Owns u b := by
    intro u b hu hb
    simpa [Owns, hvars, hu] using hb
  have hmeet : ∀ u b, u ≠ t → s'.Owns t b → ¬ s'.Owns u b := by
    intro u b hu hb hub
    rcases hself b hb with hold | ⟨rfl, -⟩
    · exact hu (hi.apart u t b (hother u b hu hub) hold)
    · exact absurd (hi.below u _ (hother u _ hu hub)) (lt_irrefl _)
  refine ⟨fun u b hb => ?_, fun u w b hu hw => ?_, fun u b hleaf => ?_⟩
  · by_cases hut : u = t
    · subst hut
      rcases hself b hb with hold | ⟨rfl, hlt⟩
      · exact lt_of_lt_of_le (hi.below u b hold) hnext
      · exact hlt
    · exact lt_of_lt_of_le (hi.below u b (hother u b hut hb)) hnext
  · by_cases hut : u = t
    · subst hut
      by_contra hne
      exact hmeet w b (Ne.symm hne) hu hw
    · by_cases hwt : w = t
      · subst hwt
        exact absurd hu (hmeet u b hut hw)
      · exact hi.apart u w b (hother u b hut hu) (hother w b hwt hw)
  · by_cases hut : u = t
    · subst hut
      rw [hvars, update_self] at hleaf ⊢
      exact hscopes b hleaf
    · rw [hvars, update_of_ne hut] at hleaf ⊢
      exact hi.scopes u b hleaf

theorem Owned.copyKey (hi : s.Owned) (lay : Layout) (sentinel : Key) :
    (s.copyKey t lay sentinel).Owned := by
  have hfresh : ∀ b, s.Owns t b → b ≠ s.nextBuffer := fun b hb => Nat.ne_of_lt (hi.below t b hb)
  cases lay with
  | leaf =>
      refine hi.setVars (t := t) rfl (Nat.le_succ _) (fun b hb => ?_) (fun b hb hb' => ?_)
      · rcases hb with hb | hb
        · exact .inr ⟨(Option.some.inj hb).symm, Nat.lt_succ_self _⟩
        · exact .inl (.inr hb)
      · exact hfresh b (.inr hb') (Option.some.inj hb).symm
  | inter =>
      refine hi.setVars (t := t) rfl (Nat.le_succ _) (fun b hb => ?_) (fun b hb hb' => ?_)
      · rcases hb with hb | hb
        · exact .inl (.inl hb)
        · exact .inr ⟨(Option.some.inj hb).symm, Nat.lt_succ_self _⟩
      · exact hfresh b (.inl hb) (Option.some.inj hb').symm

theorem Owned.endRound (hi : s.Owned) : (s.endRound t).Owned := by
  refine hi.setVars (t := t) rfl le_rfl (fun b hb => ?_) (fun b _ hb => by simp at hb)
  rcases hb with hb | hb
  · exact .inl (.inl hb)
  · exact absurd hb (by simp)

theorem Owned.endInsert (hi : s.Owned) : (s.endInsert t).Owned := by
  refine hi.setVars (t := t) rfl le_rfl (fun b hb => ?_) (fun b hb => by simp at hb)
  rcases hb with hb | hb
  · exact absurd hb (by simp)
  · exact .inl (.inr hb)

theorem frame_copyKey (hi : s.Owned) (lay : Layout) (sentinel : Key) :
    s.Frame (s.copyKey t lay sentinel) t where
  vars _ hu := update_of_ne hu _ _
  buffers u b _ hb := update_of_ne (Nat.ne_of_lt (hi.below u b hb)) _ _

/-- A buffer that thread `t` frees is nobody else's. -/
theorem frame_free (hi : s.Owned) {o : Option Nat} (ho : ∀ b, o = some b → s.Owns t b)
    (hvars : ∀ u, u ≠ t → s'.vars u = s.vars u) (hbuffers : s'.buffers = free s.buffers o) :
    s.Frame s' t where
  vars := hvars
  buffers u b hu hb := by
    rw [hbuffers, free_apply, if_neg fun hob => hu (hi.apart u t b hb (ho b hob))]

theorem frame_endRound (hi : s.Owned) : s.Frame (s.endRound t) t :=
  frame_free hi (fun _ hb => .inr hb) (fun _ hu => update_of_ne hu _ _) rfl

theorem frame_endInsert (hi : s.Owned) : s.Frame (s.endInsert t) t :=
  frame_free hi (fun _ hb => .inl hb) (fun _ hu => update_of_ne hu _ _) rfl

/-- The buffers do not depend on the pages. -/
theorem Owned.setIndex (hi : s.Owned) (index : PinnedIndex) :
    ({ s with index := index } : BufferedIndex).Owned :=
  ⟨hi.below, hi.apart, hi.scopes⟩

theorem frame_setIndex (index : PinnedIndex) : s.Frame { s with index := index } t :=
  ⟨fun _ _ => rfl, fun _ _ _ _ => rfl⟩

theorem Owned.copied (hi : s.Owned) (o : Option (Layout × Key)) : (s.copied t o).Owned := by
  cases o with
  | none => exact hi
  | some k => exact hi.copyKey k.1 k.2

theorem frame_copied (hi : s.Owned) (o : Option (Layout × Key)) : s.Frame (s.copied t o) t := by
  cases o with
  | none => exact .refl
  | some k => exact frame_copyKey hi k.1 k.2

/-- The scopes that end with the section. -/
theorem after_eq (s : BufferedIndex) (t : Nat) (pc : PinPc) (index : PinnedIndex) :
    s.after t pc index =
      match (index.threads t).pc with
      | .getNode (.inter ..) =>
          ({ s with index := index }.copied t (s.index.split pc (index.threads t).pc)).endRound t
      | .done .. =>
          (({ s with index := index }.copied t (s.index.split pc (index.threads t).pc)).endRound
            t).endInsert t
      | _ => { s with index := index }.copied t (s.index.split pc (index.threads t).pc) := rfl

theorem owned_after (hi : s.Owned) (pc : PinPc) (index : PinnedIndex) :
    (s.after t pc index).Owned ∧ s.Frame (s.after t pc index) t := by
  have hc := (hi.setIndex index).copied (t := t) (s.index.split pc (index.threads t).pc)
  have hf := (frame_setIndex (s := s) (t := t) index).trans
    (frame_copied (hi.setIndex index) (s.index.split pc (index.threads t).pc))
  rw [after_eq]
  split
  · exact ⟨hc.endRound, hf.trans (frame_endRound hc)⟩
  · have hr := hc.endRound (t := t)
    exact ⟨hr.endInsert, (hf.trans (frame_endRound hc)).trans (frame_endInsert hr)⟩
  · exact ⟨hc, hf⟩

/-! ## What a step keeps -/

theorem split_eq_none {index : PinnedIndex} (h : pc'.separator = none) :
    index.split pc pc' = none := by
  unfold PinnedIndex.split
  split
  · rw [h]
    rfl
  · rw [h]
    rfl
  · split
    · rw [h]
      rfl
    · rfl
  · rfl

/-- A thread without a key has no buffer in scope. -/
theorem Held.of_none (hsep : pc.separator = none) (hleaf : (s.vars t).leafUnique = none)
    (hinter : (s.vars t).interUnique = none) : s.Held t pc := by
  refine ⟨fun key hkey => ?_, fun _ => ⟨hleaf, hinter⟩, fun _ => hinter⟩
  rw [hsep] at hkey
  exact absurd hkey (by simp)

section After

variable {index : PinnedIndex}

/-- The insert returns: nothing is left in scope. -/
theorem held_done {success : Bool} {results : List Nat}
    (hpc : (index.threads t).pc = .done success results) :
    (s.after t pc index).Held t (index.threads t).pc := by
  rw [after_eq]
  rw [hpc]
  exact .of_none rfl (by simp [endInsert, endRound]) (by simp [endInsert, endRound])

/-- No key before the section, and none after it. -/
theorem held_plain (hheld : s.Held t pc) (hsep : pc.separator = none)
    (hsep' : (index.threads t).pc.separator = none) :
    (s.after t pc index).Held t (index.threads t).pc := by
  obtain ⟨hleaf, hinter⟩ := hheld.between hsep
  rw [after_eq]
  rw [split_eq_none hsep']
  refine .of_none hsep' ?_ ?_
  · split <;> simp [copied, endRound, endInsert, hleaf]
  · split <;> simp [copied, endRound, endInsert, hinter]

/-- A key that goes up from a leaf: its buffer lives until the insert returns. -/
theorem held_splitLeaf {sentinel : Key} (hheld : s.Held t pc) (hsep : pc.separator = none)
    (hsep' : (index.threads t).pc.separator = some sentinel)
    (hsplit : s.index.split pc (index.threads t).pc = some (.leaf, sentinel)) :
    (s.after t pc index).Held t (index.threads t).pc := by
  obtain ⟨-, hinter⟩ := hheld.between hsep
  have hcarried : ∀ s' : BufferedIndex, s'.buffers s.nextBuffer = some sentinel →
      s'.vars t = ⟨some s.nextBuffer, none, s.nextBuffer, sentinel⟩ →
        s'.Held t (index.threads t).pc := by
    intro s' hbuffer hvars
    refine ⟨fun key hkey => ?_, fun hnone => ?_, fun _ => by rw [hvars]⟩
    · rw [hsep'] at hkey
      obtain rfl := Option.some.inj hkey
      rw [hvars]
      exact ⟨rfl, hbuffer, .inr ⟨rfl, rfl⟩⟩
    · rw [hsep'] at hnone
      exact absurd hnone (by simp)
  rw [after_eq]
  rw [hsplit]
  split
  · exact hcarried _ (by simp [copied, copyKey, endRound, free, hinter])
      (by simp [copied, copyKey, endRound, hinter])
  · rename_i hdone
    rw [hdone] at hsep'
    exact absurd hsep' (by simp [PinPc.separator])
  · exact hcarried _ (by simp [copied, copyKey]) (by simp [copied, copyKey, hinter])

/-- A key that goes on up: the section neither copies nor ends a scope that has a buffer. -/
theorem held_carry {key : Key} (hheld : s.Held t pc) (hsep : pc.separator = some key)
    (hsep' : (index.threads t).pc.separator = some key)
    (hsplit : s.index.split pc (index.threads t).pc = none)
    (hround : (index.threads t).pc.inRound = true → (s.vars t).interUnique = none) :
    (s.after t pc index).Held t (index.threads t).pc := by
  have hsame : ∀ s' : BufferedIndex, s'.buffers = s.buffers → s'.vars t = s.vars t →
      s'.Held t (index.threads t).pc := by
    intro s' hbuffers hvars
    refine ⟨fun key' hkey => ?_, fun hnone => ?_, fun hin => by rw [hvars]; exact hround hin⟩
    · rw [hbuffers, hvars]
      exact hheld.carried key' (by rw [hsep, ← hsep', hkey])
    · rw [hsep'] at hnone
      exact absurd hnone (by simp)
  rw [after_eq]
  rw [hsplit]
  split
  · rename_i hpc
    have hinter := hround (by rw [hpc]; rfl)
    refine hsame _ (by simp [copied, endRound, free, hinter]) ?_
    have hvars : { s.vars t with interUnique := none } = s.vars t := by rw [← hinter]
    simp [copied, endRound, hvars]
  · rename_i hdone
    rw [hdone] at hsep'
    exact absurd hsep' (by simp [PinPc.separator])
  · exact hsame _ rfl rfl

end After

end Scopes

section Run

variable {s s' : BufferedIndex} {t : Nat} {index : PinnedIndex} {pc : PinPc}

/-- Where the key is held, the pointer is as good as the value. -/
theorem read_eq (hheld : s.Held t (s.pc t)) : s.read t = some (s.pc t) := by
  unfold read
  split
  · rename_i huses
    obtain ⟨key, hkey⟩ := PinPc.separator_of_usesKey huses
    obtain ⟨-, hbuffer, -⟩ := hheld.carried key hkey
    rw [hbuffer, Option.map_some, PinPc.withKey_self hkey]
  · rfl

theorem step_run {conflicts : List Nat} (h : s.step (.run t conflicts) = some s') :
    ∃ pc index, s.read t = some pc ∧
      s.index.runThread t (fun tid => conflicts.contains tid) pc = .ok index ∧
        s' = s.after t pc index := by
  obtain ⟨pc, hread, h⟩ := Option.bind_eq_some_iff.mp h
  split at h
  · rename_i index hrun
    exact ⟨pc, index, hread, hrun, (Option.some.inj h).symm⟩
  · exact absurd h (by simp)

theorem goesOn_inter {key : Key} {value pid : Nat} {conflicts : List Nat}
    (hpc : s.pc t = .node (.inter key value pid)) : s.goesOn (.run t conflicts) =
      (s.index.splitsInter pid key && !(s.index.threads t).stack.isEmpty) := by
  simp [goesOn, hpc]

theorem goesOn_redrop {key : Key} {dropLevel newPid pid : Nat} {level : Option Nat}
    {conflicts : List Nat}
    (hpc : s.pc t = .node (.redrop dropLevel key newPid pid level)) : s.goesOn (.run t conflicts) =
      ((s.vars t).interUnique.isSome && s.index.dropped dropLevel pid level) := by
  simp [goesOn, hpc]

/-- The buffer of a round that splits the root lives until the new root is there. -/
theorem held_splitRoot {key : Key} {value pid level newPid : Nat} {sentinel : Key}
    (hsplits : s.index.splitsInter pid key = true)
    (hpc : (index.threads t).pc = .root level sentinel pid newPid) :
    (s.after t (.node (.inter key value pid)) index).Held t (index.threads t).pc := by
  have hsplit : s.index.split (.node (.inter key value pid)) (.root level sentinel pid newPid) =
      some (.inter, sentinel) := by
    simp [PinnedIndex.split, hsplits, PinPc.separator]
  rw [after_eq, hpc, hsplit]
  refine ⟨fun key' hkey => ?_, fun hnone => ?_, fun hin => ?_⟩
  · obtain rfl := Option.some.inj hkey
    show _ ∧ _ ∧ (_ ∨ _)
    simp [copied, copyKey]
  · exact absurd hnone (by simp [PinPc.separator])
  · exact absurd hin (by simp [PinPc.inRound])

/-- A section keeps what its thread holds, unless a round goes on. -/
theorem held_after (hi : s.Inv) {conflict : Nat → Bool} {conflicts : List Nat}
    (h : s.index.runThread t conflict (s.pc t) = .ok index)
    (hlast : s.LastRound (.run t conflicts)) :
    (s.after t (s.pc t) index).Held t (index.threads t).pc := by
  have hheld := hi.held t
  have hmoves := moves_runThread h
  obtain ⟨pc', hpc'⟩ : ∃ pc', (index.threads t).pc = pc' := ⟨_, rfl⟩
  rw [hpc'] at hmoves
  cases hmoves with
  | plain hsep hsep' => exact held_plain hheld hsep (hpc' ▸ hsep')
  | finish _ _ => exact held_done hpc'
  | splitLeaf hsep hsep' hsplit => exact held_splitLeaf hheld hsep (hpc' ▸ hsep') (hpc' ▸ hsplit)
  | splitRoot hpc hsplits hstack =>
      rw [hpc]
      exact held_splitRoot hsplits hpc'
  | splitOn hpc hsplits hstack =>
      have hgoes : s.goesOn (.run t conflicts) = true := by
        rw [goesOn_inter hpc, hsplits]
        simpa using hstack
      exact absurd hgoes (by simpa [LastRound] using hlast)
  | @carry _ key hsep hsep' hsplit hround _ =>
      refine held_carry hheld hsep (hpc' ▸ hsep') (hpc' ▸ hsplit) fun hin => ?_
      rcases hround (hpc' ▸ hin) with hin | ⟨dropLevel, newPid, pid, level, hpc, hdropped⟩
      · exact hheld.round hin
      · -- the descent of a round that has split would go on
        unfold LastRound at hlast
        rw [goesOn_redrop hpc, hdropped] at hlast
        simpa using hlast

@[simp] theorem after_index (s : BufferedIndex) (t : Nat) (pc : PinPc) (index : PinnedIndex) :
    (s.after t pc index).index = index := by
  have hcopied : ∀ o, ({ s with index := index }.copied t o).index = index := by
    intro o
    cases o <;> rfl
  rw [after_eq]
  split <;> exact hcopied _

theorem inv_run (hi : s.Inv) {conflicts : List Nat} (hlast : s.LastRound (.run t conflicts))
    (h : s.step (.run t conflicts) = some s') : s'.Inv := by
  obtain ⟨pc, index, hread, hrun, rfl⟩ := step_run h
  rw [read_eq (hi.held t), Option.some.injEq] at hread
  subst hread
  obtain ⟨howned, hframe⟩ := owned_after (t := t) hi.owned (s.pc t) index
  refine ⟨howned, fun u => ?_⟩
  by_cases hu : u = t
  · subst hu
    have hheld := held_after hi hrun hlast
    unfold BufferedIndex.pc
    rw [after_index]
    exact hheld
  · have hpc : (s.after t (s.pc t) index).pc u = s.pc u := by
      unfold BufferedIndex.pc
      rw [after_index, others_runThread hrun hu]
    rw [hpc]
    exact hframe.held hu (hi.held u)

/-- A call and a return happen between inserts: no buffer is in scope. -/
theorem inv_setIndex (hi : s.Inv) (hsep : (s.pc t).separator = none)
    (hsep' : (index.threads t).pc.separator = none)
    (hothers : ∀ u, u ≠ t → index.threads u = s.index.threads u) :
    ({ s with index := index } : BufferedIndex).Inv := by
  refine ⟨hi.owned.setIndex index, fun u => ?_⟩
  by_cases hu : u = t
  · subst hu
    obtain ⟨hleaf, hinter⟩ := (hi.held u).between hsep
    exact .of_none hsep' hleaf hinter
  · have hpc : ({ s with index := index } : BufferedIndex).pc u = s.pc u := by
      unfold BufferedIndex.pc
      rw [hothers u hu]
    rw [hpc]
    exact (frame_setIndex index).held hu (hi.held u)

theorem inv_step {a : PinAction} (hi : s.Inv) (hlast : s.LastRound a) (h : s.step a = some s') :
    s'.Inv := by
  cases a with
  | invoke t op =>
      obtain ⟨index, hindex, rfl⟩ := Option.map_eq_some_iff.mp h
      simp only [PinnedIndex.step, Option.ite_none_right_eq_some, Option.some.injEq] at hindex
      obtain ⟨hidle, rfl⟩ := hindex
      refine inv_setIndex (t := t) hi ?_ (by simp [PinPc.separator]) fun u hu => by simp [hu]
      unfold BufferedIndex.pc
      rw [hidle]
      rfl
  | run t conflicts => exact inv_run hi hlast h
  | ret t =>
      obtain ⟨index, hindex, rfl⟩ := Option.map_eq_some_iff.mp h
      unfold PinnedIndex.step at hindex
      dsimp only at hindex
      split at hindex
      · rename_i hdone
        obtain rfl := Option.some.inj hindex
        refine inv_setIndex (t := t) hi ?_ (by rw [goto_pc]; rfl) fun u hu => goto_others _ _ _ hu
        unfold BufferedIndex.pc
        rw [hdone]
        rfl
      · exact absurd hindex (by simp)

theorem inv_init (h : s.Init) : s.Inv := by
  obtain ⟨hidle, hvars⟩ := h
  have hnone : ∀ t b, ¬ s.Owns t b := by
    rintro t b (hb | hb)
    · simp [(hvars t).1] at hb
    · simp [(hvars t).2] at hb
  refine ⟨⟨fun t b hb => absurd hb (hnone t b), fun t _ b hb => absurd hb (hnone t b),
    fun t b hb => absurd hb (by simp [(hvars t).1])⟩, fun t => ?_⟩
  rw [hidle t]
  exact .of_none rfl (hvars t).1 (hvars t).2

theorem inv_reachable (hr : bufferedSystem.ReachableBy LastRound s) : s.Inv :=
  hr.invariant (fun _ h => inv_init h) fun _ _ _ hi hlast h => inv_step hi hlast h

/-- Where every split of an inner page was the last round, a step is one of the index that
hands keys on by value. -/
theorem index_step {a : PinAction} (hr : bufferedSystem.ReachableBy LastRound s)
    (h : s.step a = some s') :
    s.index.step a = some s'.index := by
  cases a with
  | invoke t op =>
      obtain ⟨index, hindex, rfl⟩ := Option.map_eq_some_iff.mp h
      exact hindex
  | ret t =>
      obtain ⟨index, hindex, rfl⟩ := Option.map_eq_some_iff.mp h
      exact hindex
  | run t conflicts =>
      obtain ⟨pc, index, hread, hrun, rfl⟩ := step_run h
      rw [read_eq ((inv_reachable hr).held t), Option.some.injEq] at hread
      subst hread
      rw [after_index]
      unfold PinnedIndex.step
      dsimp only
      rw [show (s.index.threads t).pc = s.pc t from rfl, hrun]

theorem goesOn_cases {conflicts : List Nat} (h : s.goesOn (.run t conflicts) = true) :
    (∃ key value pid, s.pc t = .node (.inter key value pid) ∧ s.index.splitsInter pid key = true ∧
        (s.index.threads t).stack ≠ []) ∨
      ∃ dropLevel key newPid pid level, s.pc t = .node (.redrop dropLevel key newPid pid level) ∧
        (s.vars t).interUnique ≠ none ∧ s.index.dropped dropLevel pid level = true := by
  unfold goesOn at h
  dsimp only at h
  split at h <;> rename_i hpc
  · simp only [Bool.and_eq_true, Bool.not_eq_true', List.isEmpty_eq_false_iff] at h
    exact .inl ⟨_, _, _, hpc, h⟩
  · simp only [Bool.and_eq_true, Option.isSome_iff_ne_none] at h
    exact .inr ⟨_, _, _, _, _, hpc, h⟩
  · exact absurd h (by simp)

/-- The buffer of the round that split is gone when the next one begins. -/
theorem lost_splitOn {key sentinel : Key} {value pid newPid top : Nat}
    (hsplits : s.index.splitsInter pid key = true)
    (hpc : (index.threads t).pc = .getNode (.inter sentinel newPid top)) :
    (s.after t (.node (.inter key value pid)) index).buffers
      ((s.after t (.node (.inter key value pid)) index).vars t).data = none := by
  have hsplit :
      s.index.split (.node (.inter key value pid)) (.getNode (.inter sentinel newPid top)) =
      some (.inter, sentinel) := by
    simp [PinnedIndex.split, hsplits, PinPc.separator]
  rw [after_eq, hpc, hsplit]
  simp [copied, copyKey, endRound, free]

/-- The same after a second descent. -/
theorem lost_redrop {key : Key} {newPid pid : Nat} (hheld : s.Held t pc)
    (hsep : pc.separator = some key) (hinter : (s.vars t).interUnique ≠ none)
    (hsplit : s.index.split pc (index.threads t).pc = none)
    (hpc : (index.threads t).pc = .getNode (.inter key newPid pid)) :
    (s.after t pc index).buffers ((s.after t pc index).vars t).data = none := by
  have hin : (s.vars t).interUnique = some (s.vars t).data := by
    rcases (hheld.carried key hsep).2.2 with hin | ⟨hnone, -⟩
    · exact hin
    · exact absurd hnone hinter
  rw [after_eq, hsplit, hpc]
  simp [copied, endRound, free, hin]

/-- A round that follows one that has split an inner page has no key. -/
theorem lost_of_goesOn (hi : s.Inv) {conflicts : List Nat} (h : s.step (.run t conflicts) = some s')
    (hgoes : s.goesOn (.run t conflicts) = true) :
    (s'.pc t).inRound = true ∧ s'.buffers (s'.vars t).data = none := by
  obtain ⟨pc, index, hread, hrun, rfl⟩ := step_run h
  have hheld := hi.held t
  rw [read_eq hheld, Option.some.injEq] at hread
  subst hread
  have hmoves := moves_runThread hrun
  obtain ⟨pc', hpc'⟩ : ∃ pc', (index.threads t).pc = pc' := ⟨_, rfl⟩
  rw [hpc'] at hmoves
  have hpcs : (s.after t (s.pc t) index).pc t = pc' := by
    unfold BufferedIndex.pc
    rw [after_index, hpc']
  rw [hpcs]
  rcases goesOn_cases hgoes with ⟨key, value, pid, hpc, hsplits, hstack⟩ |
    ⟨dropLevel, key, newPid, pid, level, hpc, hinter, hdropped⟩
  · rw [hpc] at hmoves ⊢
    cases hmoves with
    | plain hsep _ => exact absurd hsep (by simp [PinPc.separator])
    | finish _ hno => exact absurd hsplits (by simp [hno key value pid rfl])
    | splitLeaf hsep _ _ => exact absurd hsep (by simp [PinPc.separator])
    | splitRoot _ _ hnil => exact absurd hnil hstack
    | splitOn _ _ _ => exact ⟨rfl, lost_splitOn hsplits hpc'⟩
    | carry _ hsep' hsplit _ _ =>
        exact absurd hsplit (by simp [PinnedIndex.split, hsplits, hsep'])
  · rw [hpc] at hmoves
    have hsep : (s.pc t).separator = some key := by
      rw [hpc]
      rfl
    cases hmoves with
    | plain hnone _ => exact absurd hnone (by simp [PinPc.separator])
    | finish hno _ => exact absurd hno (by simp [PinPc.redropping])
    | splitLeaf hnone _ _ => exact absurd hnone (by simp [PinPc.separator])
    | splitRoot hno _ _ => exact absurd hno (by simp)
    | splitOn hno _ _ => exact absurd hno (by simp)
    | carry hkey _ hsplit _ hend =>
        obtain rfl := Option.some.inj hkey
        have hnext := hend dropLevel newPid pid level rfl hdropped
        refine ⟨by rw [hnext]; rfl, lost_redrop hheld hsep hinter ?_ (hpc'.trans hnext)⟩
        rw [hpc, hpc']
        exact hsplit

/-- **Look-ups of a separator.** Where every split of an inner page was the last round of
its insert, every use of the key finds the sentinel that the last split returned; and a
round that follows one that has split an inner page has no buffer for its key. -/
theorem separators_present (hr : bufferedSystem.ReachableBy LastRound s) :
    (∀ t, (s.pc t).usesKey = true → s.buffers (s.vars t).data = some (s.vars t).returned) ∧
      ∀ t conflicts s', s.step (.run t conflicts) = some s' → s.goesOn (.run t conflicts) = true →
        (s'.pc t).inRound = true ∧ s'.buffers (s'.vars t).data = none := by
  have hi := inv_reachable hr
  refine ⟨fun t huses => ?_, fun t conflicts s' h hgoes => lost_of_goesOn hi h hgoes⟩
  obtain ⟨key, hkey⟩ := PinPc.separator_of_usesKey huses
  obtain ⟨rfl, hbuffer, -⟩ := (hi.held t).carried key hkey
  exact hbuffer

end Run

/-! ## Two levels that split in a row -/

/-- Columns that begin with the byte `i`; with the id the key has 808 bytes. -/
def broad (i : Nat) : Key := byte i :: List.replicate 799 (byte 0)

def broadKey (i : Nat) : Key := buildKey (broad i) 1

/-- A key of 60 bytes, the smallest of the index. -/
def slimKey : Key := buildKey (List.replicate 52 (byte 0)) 1

/-- A page with a page to its right. -/
def fenced (lay : Layout) (fence : Key) (child rlink : Nat) (pg : BtreePage) :
    Except Fault BtreePage := do
  let (pg, off) ← lay.appendHeap pg fence child
  .ok { pg with maxVal := off, rlink := rlink }

/-- The leftmost leaf: there is no room for another broad key. -/
def fullLeaf : Except Fault BtreePage :=
  (slimKey :: (List.range 8).map fun i => broadKey (i + 1)).foldlM BtreeVarlenLayoutLeaf.insert
    (.initHeader 0 4) >>=
    fenced .leaf (broadKey 10) 0 5

/-- The page above it, over the leaves 4 to 12: there is no room for another separator. -/
def fullInter : Except Fault BtreePage := do
  let pg ← BtreeVarlenLayoutIntermediate.createRoot (.initHeader 1 2) (broadKey 10) 4 5
  let pg ← (List.range 7).foldlM
    (fun pg i => BtreeVarlenLayoutIntermediate.insert pg (broadKey (10 * i + 20)) (i + 6)) pg
  fenced .inter (broadKey 90) 13 3 pg

/-- Its right neighbour, over the leaves 13 and 14. -/
def rightInter : Except Fault BtreePage := do
  let pg ← BtreeVarlenLayoutIntermediate.insert (.initHeader 1 3) (broadKey 90) 13
  BtreeVarlenLayoutIntermediate.insert pg (broadKey 100) 14

/-- The other leaves have one key. -/
def otherLeaf (pid : Nat) : Except Fault BtreePage := do
  let pg ← BtreeVarlenLayoutLeaf.insert (.initHeader 0 pid) (broadKey (10 * (pid - 4)))
  if pid < 14 then fenced .leaf (broadKey (10 * (pid - 3))) 0 (pid + 1) pg else .ok pg

/-- An index of three levels, as inserts in descending order grow it. -/
def threeLevels : BufferedIndex where
  index := { PinnedIndex.init (fun _ => 0) with
    pages := fun pid =>
      if pid = 1
        then (BtreeVarlenLayoutIntermediate.createRoot (.initHeader 2 1) (broadKey 90) 2 3).toOption
      else if pid = 2 then fullInter.toOption
      else if pid = 3 then rightInter.toOption
      else if pid = 4 then fullLeaf.toOption
      else if pid < 15 then (otherLeaf pid).toOption
      else none
    nextPid := 15 }
  buffers := fun _ => none
  nextBuffer := 0
  vars := fun _ => ⟨none, none, 0, []⟩

theorem threeLevels_init : threeLevels.Init := ⟨fun _ => rfl, fun _ => ⟨rfl, rfl⟩⟩

/-- An insert into the full leaf, and its first `n` steps. -/
def insertBroad (n : Nat) : List PinAction :=
  .invoke 0 (.insert (broad 9) 1) :: List.replicate n (.run 0 [])

theorem separators_present_threeLevels : ∃ s, bufferedSystem.ReachableBy LastRound s ∧
    (s.pc 0).usesKey = true ∧ s.buffers (s.vars 0).data = some (s.vars 0).returned := by
  have hrun : (bufferedSystem.exec LastRound threeLevels (insertBroad 9)).map
      (fun s => (s.pc 0).usesKey) =
      some true := by
    decide +kernel
  obtain ⟨s, hexec, huses⟩ := Option.map_eq_some_iff.mp hrun
  have hs : bufferedSystem.ReachableBy LastRound s :=
    ⟨threeLevels, threeLevels_init, .of_exec _ hexec⟩
  exact ⟨s, hs, huses, (separators_present hs).1 0 huses⟩

/-- The leaf and the page above it split; at the root the key points to nothing. -/
theorem separator_lost : ¬ ∀ s, bufferedSystem.Reachable s → ∀ t, (s.pc t).usesKey = true →
    s.buffers (s.vars t).data = some (s.vars t).returned := by
  intro hall
  have hrun : (bufferedSystem.exec TSys.Always threeLevels (insertBroad 11)).map
      (fun s => ((s.pc 0).usesKey, (s.buffers (s.vars 0).data).isNone)) = some (true, true) := by
    decide +kernel
  obtain ⟨s, hexec, hview⟩ := Option.map_eq_some_iff.mp hrun
  obtain ⟨huses, hnone⟩ := Prod.mk.inj hview
  have hsome := hall s ⟨threeLevels, threeLevels_init, .of_exec _ hexec⟩ 0 huses
  rw [hsome] at hnone
  exact absurd hnone (by simp)

end BufferedIndex

end Db7
