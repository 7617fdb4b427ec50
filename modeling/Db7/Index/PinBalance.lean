import Db7.Index.NodePins
import Db7.Index.Records
import Db7.Index.Runs
import Db7.Lib.Total

/-!
# The balance of pins

Every section of a call gives back the pins that the thread does not hold on
(`Gives`), with one exception: `DropToLevel(key, drop_level)` returns without
releasing the page at which it ends. Hence the conservation law
`pins_conserved`: at any time the pin count of a page is what it was at the
start, plus one for each thread that holds the page, plus one for each second
descent that has ended there.

* **pins_balanced**: when all calls have returned the pins are what they were, on
  the runs in which a page that was split without a stack is still the root;
* **pin_leaked**: a run in which it is not.
-/

namespace Db7

open Lib Function KeyNormEncoder

namespace PinPc

/-- The pages that a thread holds a pin on. -/
def held : PinPc → List Nat
  | getNode n => n.visited
  | node n => n.pid :: n.visited
  | check pid visited _ _ => pid :: visited
  | insertUnique _ visited => visited
  | follow pid _ => [pid]
  | idle | loadRoot | root .. | reloadRoot .. | done .. => []

/-- The thread descends a second time. -/
def redropping : PinPc → Bool
  | reloadRoot .. | getNode (.redrop ..) | node (.redrop ..) => true
  | _ => false

end PinPc

/-- The thread of a step. -/
def PinAction.thread : PinAction → Nat
  | .invoke t _ | .run t _ | .ret t => t

namespace PinnedIndex

/-! ## What the operations do to the counts -/

section Operations

variable (s : PinnedIndex) (t pid p : Nat) (pg : BtreePage) (pc : PinPc) (stack : List Nat)

@[simp] theorem pin_pins : (s.pin pid).pins p = s.pins p + [pid].count p := by
  by_cases h : p = pid
  · simp [pin, h]
  · simp [pin, h, Ne.symm h]

@[simp] theorem unpin_pins : (s.unpin pid).pins p = s.pins p - [pid].count p := by
  by_cases h : p = pid
  · simp [unpin, h]
  · simp [unpin, h, Ne.symm h]

@[simp] theorem goto_pins : (s.goto t pc).pins = s.pins := rfl

@[simp] theorem setStack_pins : (s.setStack t stack).pins = s.pins := rfl

@[simp] theorem setPage_pins : (s.setPage pid pg).pins = s.pins := rfl

@[simp] theorem lock_pins : (s.lock t pid).pins = s.pins := rfl

@[simp] theorem releaseNode_pins : (s.releaseNode pid).pins p = s.pins p - [pid].count p :=
  unpin_pins (s.unlock pid) pid p

@[simp] theorem goto_redrops : (s.goto t pc).redrops = s.redrops := rfl

@[simp] theorem setStack_redrops : (s.setStack t stack).redrops = s.redrops := rfl

@[simp] theorem releaseNode_redrops : (s.releaseNode pid).redrops = s.redrops := rfl

@[simp] theorem releaseNode_threads : (s.releaseNode pid).threads = s.threads := rfl

@[simp] theorem goto_pc : ((s.goto t pc).threads t).pc = pc := by simp [goto]

theorem goto_others {u : Nat} (hu : u ≠ t) : (s.goto t pc).threads u = s.threads u := by
  simp [goto, hu]

theorem setStack_others {u : Nat} (hu : u ≠ t) : (s.setStack t stack).threads u = s.threads u := by
  simp [setStack, hu]

/-- `FreePages` gives back one pin for each entry. -/
theorem freePages_spec (visited : List Nat) : ∀ s : PinnedIndex,
    (∀ p, (s.freePages visited).pins p = s.pins p - visited.count p) ∧
      (s.freePages visited).threads = s.threads ∧ (s.freePages visited).redrops = s.redrops := by
  induction visited with
  | nil => exact fun s => ⟨fun p => by simp [freePages], rfl, rfl⟩
  | cons pid visited ih =>
      intro s
      obtain ⟨hpins, hthreads, hredrops⟩ := ih (s.releaseNode pid)
      refine ⟨fun p => ?_, hthreads, hredrops⟩
      show ((s.releaseNode pid).freePages visited).pins p = _
      rw [hpins, releaseNode_pins, show pid :: visited = [pid] ++ visited from rfl,
        List.count_append]
      omega

end Operations

/-! ## What a section gives back -/

/-- Thread `t`, which held `held`, has given back some of it and holds the rest;
with `r` it may be in a second descent now. -/
structure Gives (s s' : PinnedIndex) (t : Nat) (held : List Nat) (r : Bool) : Prop where
  back : ∃ back : List Nat, (∀ p, s'.pins p = s.pins p - back.count p) ∧
    ∀ p, held.count p = back.count p + (s'.threads t).pc.held.count p
  others : ∀ u, u ≠ t → s'.threads u = s.threads u
  redrops : s'.redrops = s.redrops
  straight : (s'.threads t).pc.redropping = true → r = true

section Sections

variable {s s' s₁ : PinnedIndex} {t pid : Nat} {held : List Nat} {r : Bool}

theorem Gives.of_goto (back : List Nat) {pc : PinPc}
    (hpins : ∀ p, s₁.pins p = s.pins p - back.count p)
    (hothers : ∀ u, u ≠ t → s₁.threads u = s.threads u) (hredrops : s₁.redrops = s.redrops)
    (hheld : ∀ p, held.count p = back.count p + pc.held.count p)
    (hr : pc.redropping = true → r = true) : Gives s (s₁.goto t pc) t held r := by
  refine ⟨⟨back, hpins, fun p => ?_⟩, fun u hu => ?_, hredrops, ?_⟩
  · rw [goto_pc]
    exact hheld p
  · rw [goto_others _ _ _ hu]
    exact hothers u hu
  · rw [goto_pc]
    exact hr

/-- A thread that keeps its page. -/
theorem Gives.keep {pc : PinPc} (hheld : pc.held = held) (hr : pc.redropping = true → r = true) :
    Gives s (s.goto t pc) t held r :=
  .of_goto [] (by simp) (fun _ _ => rfl) rfl (by simp [hheld]) hr

/-- A thread that releases its page. -/
theorem Gives.unpin {pc : PinPc} (hheld : pc.held = []) (hr : pc.redropping = true → r = true)
    (hpins : s₁.pins = s.pins) (hothers : ∀ u, u ≠ t → s₁.threads u = s.threads u)
    (hredrops : s₁.redrops = s.redrops) : Gives s ((s₁.unpin pid).goto t pc) t [pid] r :=
  .of_goto [pid] (fun p => by rw [unpin_pins, hpins]) hothers hredrops (by simp [hheld]) hr

theorem Gives.release {pc : PinPc} (hheld : pc.held = []) (hr : pc.redropping = true → r = true)
    (hpins : s₁.pins = s.pins) (hothers : ∀ u, u ≠ t → s₁.threads u = s.threads u)
    (hredrops : s₁.redrops = s.redrops) : Gives s ((s₁.releaseNode pid).goto t pc) t [pid] r :=
  .of_goto [pid] (fun p => by rw [releaseNode_pins, hpins]) hothers hredrops (by simp [hheld]) hr

/-- A split is over, and its pages are released. -/
theorem Gives.afterSplit (back : List Nat) {level newPid : Nat} {sentinel : Key}
    (hpins : ∀ p, s₁.pins p = s.pins p - back.count p)
    (hothers : ∀ u, u ≠ t → s₁.threads u = s.threads u) (hredrops : s₁.redrops = s.redrops)
    (hheld : ∀ p, held.count p = back.count p) :
    Gives s (s₁.afterSplit t level sentinel pid newPid) t held r := by
  unfold PinnedIndex.afterSplit
  split
  · exact .of_goto back hpins hothers hredrops (by simpa [PinPc.held] using hheld)
      (by simp [PinPc.redropping])
  · refine .of_goto back hpins (fun u hu => ?_) hredrops
      (by simpa [PinPc.held, NodePc.visited] using hheld) (by simp [PinPc.redropping])
    rw [setStack_others _ _ _ hu]
    exact hothers u hu

theorem push_ok (h : s.push t pid = .ok s') : s' = s.setStack t (pid :: (s.threads t).stack) := by
  obtain ⟨_, -, h⟩ := bind_ok.mp h
  exact (Except.ok.inj h).symm

theorem reserveNode_ok {newPid : Nat} (h : s.reserveNode t = .ok (s', newPid)) :
    (∀ p, s'.pins p = s.pins p + [newPid].count p) ∧ s'.threads = s.threads ∧
      s'.redrops = s.redrops := by
  obtain ⟨_, -, h⟩ := bind_ok.mp h
  obtain ⟨rfl, rfl⟩ := Prod.mk.inj (Except.ok.inj h)
  exact ⟨fun p => by rw [lock_pins, pin_pins], rfl, rfl⟩

/-- The fresh page of a split is pinned and released again. -/
theorem splitLeaf_ok {pg : BtreePage} {key sentinel : Key} {newPid : Nat}
    (h : s.splitLeaf t pid pg key = .ok (s', newPid, sentinel)) :
    s'.pins = s.pins ∧ s'.threads = s.threads ∧ s'.redrops = s.redrops := by
  obtain ⟨⟨s₂, newPid'⟩, hreserve, h⟩ := bind_ok.mp h
  obtain ⟨⟨left, right, sentinel'⟩, -, h⟩ := bind_ok.mp h
  obtain ⟨rfl, hrest⟩ := Prod.mk.inj (Except.ok.inj h)
  obtain ⟨rfl, rfl⟩ := Prod.mk.inj hrest
  obtain ⟨hpins, hthreads, hredrops⟩ := reserveNode_ok hreserve
  refine ⟨funext fun p => ?_, hthreads, hredrops⟩
  rw [releaseNode_pins, setPage_pins, setPage_pins, hpins]
  omega

theorem splitInter_ok {pg : BtreePage} {key sentinel : Key} {value newPid : Nat}
    (h : s.splitInter t pid pg key value = .ok (s', newPid, sentinel)) :
    s'.pins = s.pins ∧ s'.threads = s.threads ∧ s'.redrops = s.redrops := by
  obtain ⟨⟨s₂, newPid'⟩, hreserve, h⟩ := bind_ok.mp h
  obtain ⟨⟨left, right, sentinel'⟩, -, h⟩ := bind_ok.mp h
  obtain ⟨rfl, hrest⟩ := Prod.mk.inj (Except.ok.inj h)
  obtain ⟨rfl, rfl⟩ := Prod.mk.inj hrest
  obtain ⟨hpins, hthreads, hredrops⟩ := reserveNode_ok hreserve
  refine ⟨funext fun p => ?_, hthreads, hredrops⟩
  rw [releaseNode_pins, setPage_pins, setPage_pins, hpins]
  omega

theorem createNewRoot_ok {level newPid : Nat} {key : Key}
    (h : s.createNewRoot t level key pid newPid = .ok s') :
    s'.pins = s.pins ∧ s'.threads = s.threads ∧ s'.redrops = s.redrops := by
  obtain ⟨⟨s₂, rootPid⟩, hreserve, h⟩ := bind_ok.mp h
  obtain ⟨root, -, h⟩ := bind_ok.mp h
  obtain rfl := Except.ok.inj h
  obtain ⟨hpins, hthreads, hredrops⟩ := reserveNode_ok hreserve
  refine ⟨funext fun p => ?_, hthreads, hredrops⟩
  rw [releaseNode_pins]
  show s₂.pins p - _ = _
  rw [hpins]
  omega

theorem gives_drop (h : s.dropStep t pid = .ok s') : Gives s s' t [pid] false := by
  obtain ⟨pg, -, h⟩ := bind_ok.mp h
  split at h
  · split at h <;> obtain rfl := Except.ok.inj h <;> exact .keep rfl (by simp [PinPc.redropping])
  · split at h
    · obtain rfl := Except.ok.inj h
      exact .unpin rfl (by simp [PinPc.redropping]) rfl (fun _ _ => rfl) rfl
    · obtain ⟨child, -, h⟩ := bind_ok.mp h
      obtain ⟨s₂, hpush, h⟩ := bind_ok.mp h
      obtain rfl := push_ok hpush
      obtain rfl := Except.ok.inj h
      exact .unpin rfl (by simp [PinPc.redropping]) rfl (fun u hu => setStack_others _ _ _ hu) rfl

theorem gives_insert {key : Key} (h : s.insertStep t pid key = .ok s') :
    Gives s s' t [pid] false := by
  obtain ⟨pg, -, h⟩ := bind_ok.mp h
  split at h
  · obtain rfl := Except.ok.inj h
    exact .release rfl (by simp [PinPc.redropping]) rfl (fun _ _ => rfl) rfl
  · split at h
    · obtain ⟨pg', -, h⟩ := bind_ok.mp h
      obtain rfl := Except.ok.inj h
      exact .release rfl (by simp [PinPc.redropping]) rfl (fun _ _ => rfl) rfl
    · obtain ⟨⟨s₂, newPid, sentinel⟩, hsplit, h⟩ := bind_ok.mp h
      obtain rfl := Except.ok.inj h
      obtain ⟨hpins, hthreads, hredrops⟩ := splitLeaf_ok hsplit
      refine .afterSplit [pid] (fun p => ?_) (fun u _ => ?_) hredrops (fun _ => rfl)
      · rw [releaseNode_pins, hpins, lock_pins]
      · rw [releaseNode_threads, hthreads]
        rfl

theorem gives_delete {key : Key} (h : s.deleteStep t pid key = .ok s') :
    Gives s s' t [pid] false := by
  obtain ⟨pg, -, h⟩ := bind_ok.mp h
  split at h
  · obtain rfl := Except.ok.inj h
    exact .release rfl (by simp [PinPc.redropping]) rfl (fun _ _ => rfl) rfl
  · obtain ⟨pg', -, h⟩ := bind_ok.mp h
    obtain rfl := Except.ok.inj h
    exact .release rfl (by simp [PinPc.redropping]) rfl (fun _ _ => rfl) rfl

theorem gives_unique (h : s.uniqueStep t pid = .ok s') : Gives s s' t [pid] false := by
  obtain ⟨pg, -, h⟩ := bind_ok.mp h
  split at h <;> obtain rfl := Except.ok.inj h
  · exact .release rfl (by simp [PinPc.redropping]) rfl (fun _ _ => rfl) rfl
  · exact .of_goto [] (by simp) (fun _ _ => rfl) rfl (by simp [PinPc.held])
      (by simp [PinPc.redropping])

theorem gives_check {visited : List Nat} {insertPage : Option Nat} {search : Bool}
    {conflict : Nat → Bool} (h : s.checkStep t pid visited insertPage search conflict = .ok s') :
    Gives s s' t (pid :: visited) false := by
  have hcount : ∀ p, (pid :: visited).count p = (visited ++ [pid]).count p := by
    intro p
    rw [List.count_append, show pid :: visited = [pid] ++ visited from rfl,
      List.count_append, Nat.add_comm]
  obtain ⟨pg, -, h⟩ := bind_ok.mp h
  split at h
  · -- a conflict: everything is given back
    obtain rfl := Except.ok.inj h
    obtain ⟨hpins, hthreads, hredrops⟩ := freePages_spec (visited ++ [pid]) s
    exact .of_goto (visited ++ [pid]) hpins (fun u _ => by rw [hthreads]) hredrops
      (by simpa [PinPc.held] using hcount) (by simp [PinPc.redropping])
  · dsimp only at h
    generalize (if insertPage = none ∧
      ¬ BtreeVarlenLayoutLeaf.hasSplit pg (s.threads t).op.key = true then some pid
      else insertPage) = page at h
    split at h
    · obtain rfl := Except.ok.inj h
      exact .of_goto [] (by simp) (fun _ _ => rfl) rfl
        (by simpa [PinPc.held, NodePc.visited] using hcount)
        (by simp [PinPc.redropping])
    · split at h
      · obtain rfl := Except.ok.inj h
        exact .of_goto [] (by simp) (fun _ _ => rfl) rfl (by simpa [PinPc.held] using hcount)
          (by simp [PinPc.redropping])
      · exact absurd h (by simp)

theorem gives_insertUnique {page : Nat} {visited : List Nat}
    (h : s.insertUniqueStep t page visited = .ok s') : Gives s s' t visited false := by
  obtain ⟨pg, -, h⟩ := bind_ok.mp h
  split at h
  · obtain ⟨pg', -, h⟩ := bind_ok.mp h
    obtain rfl := Except.ok.inj h
    obtain ⟨hpins, hthreads, hredrops⟩ := freePages_spec visited (s.setPage page pg')
    exact .of_goto visited hpins (fun u _ => by rw [hthreads]; rfl) hredrops (by simp [PinPc.held])
      (by simp [PinPc.redropping])
  · obtain ⟨⟨s₂, newPid, sentinel⟩, hsplit, h⟩ := bind_ok.mp h
    obtain rfl := Except.ok.inj h
    obtain ⟨hpins, hthreads, hredrops⟩ := splitLeaf_ok hsplit
    obtain ⟨hpins', hthreads', hredrops'⟩ := freePages_spec visited s₂
    refine .afterSplit visited (fun p => ?_) (fun u _ => ?_)
      (hredrops'.trans hredrops) (fun _ => rfl)
    · rw [hpins', hpins]
    · rw [hthreads', hthreads]

theorem gives_root {level newPid : Nat} {sentinel : Key}
    (h : s.rootStep t level sentinel pid newPid = .ok s') :
    Gives s s' t [] (decide (s.rootId ≠ pid)) := by
  unfold rootStep at h
  split at h <;> rename_i hroot
  · obtain ⟨s₂, hcreate, h⟩ := bind_ok.mp h
    obtain rfl := Except.ok.inj h
    obtain ⟨hpins, hthreads, hredrops⟩ := createNewRoot_ok hcreate
    exact .of_goto [] (by simp [hpins]) (fun u _ => by rw [hthreads]) hredrops
      (by simp [PinPc.held])
      (by simp [PinPc.redropping])
  · obtain rfl := Except.ok.inj h
    exact .keep rfl (by simpa [PinPc.redropping] using hroot)

theorem gives_inter {key : Key} {value : Nat} (h : s.interStep t key value pid = .ok s') :
    Gives s s' t [pid] false := by
  obtain ⟨pg, -, h⟩ := bind_ok.mp h
  split at h
  · obtain rfl := Except.ok.inj h
    exact .release rfl (by simp [PinPc.redropping]) rfl (fun _ _ => rfl) rfl
  · split at h
    · obtain ⟨pg', -, h⟩ := bind_ok.mp h
      obtain rfl := Except.ok.inj h
      exact .release rfl (by simp [PinPc.redropping]) rfl (fun _ _ => rfl) rfl
    · obtain ⟨⟨s₂, newPid, sentinel⟩, hsplit, h⟩ := bind_ok.mp h
      obtain rfl := Except.ok.inj h
      obtain ⟨hpins, hthreads, hredrops⟩ := splitInter_ok hsplit
      refine .afterSplit [pid] (fun p => ?_) (fun u _ => ?_) hredrops (fun _ => rfl)
      · rw [releaseNode_pins, hpins, lock_pins]
      · rw [releaseNode_threads, hthreads]
        rfl

theorem gives_scan {results : List Nat} (h : s.scanStep t pid results = .ok s') :
    Gives s s' t [pid] false := by
  obtain ⟨pg, -, h⟩ := bind_ok.mp h
  split at h
  · obtain rfl := Except.ok.inj h
    exact .unpin rfl (by simp [PinPc.redropping]) rfl (fun _ _ => rfl) rfl
  · dsimp only at h
    split at h <;> obtain rfl := Except.ok.inj h
    · exact .keep rfl (by simp [PinPc.redropping])
    · exact .unpin rfl (by simp [PinPc.redropping]) rfl (fun _ _ => rfl) rfl

theorem gives_follow {results : List Nat} (h : s.followStep t pid results = .ok s') :
    Gives s s' t [pid] false := by
  obtain ⟨pg, -, h⟩ := bind_ok.mp h
  split at h <;> obtain rfl := Except.ok.inj h <;>
    exact .unpin rfl (by simp [PinPc.redropping]) rfl (fun _ _ => rfl) rfl

theorem gives_redrop {dropLevel newPid : Nat} {sentinel : Key} {level : Option Nat}
    (h : s.redropStep t dropLevel sentinel newPid pid level = .ok s') :
    Gives s s' t [pid] true ∨
      s'.pins = s.pins ∧ (s'.threads t).pc = .getNode (.inter sentinel newPid pid) ∧
        (∀ u, u ≠ t → s'.threads u = s.threads u) ∧
          s'.redrops = update s.redrops pid (s.redrops pid + 1) := by
  obtain ⟨pg, -, h⟩ := bind_ok.mp h
  obtain ⟨_, -, h⟩ := bind_ok.mp h
  split at h
  · -- the descent ends, and nothing is released
    obtain ⟨s₂, hpush, h⟩ := bind_ok.mp h
    obtain rfl := push_ok hpush
    obtain rfl := Except.ok.inj h
    refine .inr ⟨rfl, goto_pc .., fun u hu => ?_, rfl⟩
    rw [goto_others _ _ _ hu]
    show ((s.setStack t _).setStack t _).threads u = _
    rw [setStack_others _ _ _ hu, setStack_others _ _ _ hu]
  · left
    split at h
    · obtain rfl := Except.ok.inj h
      exact .unpin rfl (fun _ => rfl) rfl (fun _ _ => rfl) rfl
    · obtain ⟨child, -, h⟩ := bind_ok.mp h
      obtain ⟨s₂, hpush, h⟩ := bind_ok.mp h
      obtain rfl := push_ok hpush
      obtain rfl := Except.ok.inj h
      exact .unpin rfl (fun _ => rfl) rfl (fun u hu => setStack_others _ _ _ hu) rfl

end Sections

/-! ## The conservation law -/

/-- At the root section the page that was split is not the root any more. -/
def staleRoot (s : PinnedIndex) : PinPc → Bool
  | .root _ _ pid _ => decide (s.rootId ≠ pid)
  | _ => false

section Ledger

variable {s s' : PinnedIndex} {t pid : Nat} {held : List Nat} {r : Bool} {pc : PinPc}
  {conflict : Nat → Bool} {base : Nat → Nat}

theorem Gives.mono (h : Gives s s' t held false) : Gives s s' t held r :=
  ⟨h.back, h.others, h.redrops, fun hr => absurd (h.straight hr) (by simp)⟩

theorem gives_node {n : NodePc} (h : s.nodeStep t n = .ok s')
    (hredrop : (PinPc.node n).redropping = false) :
    Gives s s' t (n.pid :: n.visited) false := by
  cases n with
  | drop pid => exact gives_drop h
  | leaf pid =>
      unfold nodeStep at h
      dsimp only at h
      split at h
      · exact gives_delete h
      · exact gives_insert h
  | unique pid => exact gives_unique h
  | crab pid visited insertPage =>
      obtain rfl := Except.ok.inj h
      exact .of_goto [] (by simp) (fun _ _ => rfl) rfl
        (by simp [PinPc.held, NodePc.visited, NodePc.pid])
        (by simp [PinPc.redropping])
  | redrop dropLevel sentinel newPid pid level => exact absurd hredrop (by simp [PinPc.redropping])
  | inter sentinel value pid => exact gives_inter h
  | scan pid results => exact gives_scan h

/-- A step of a thread takes one pin, or ends a second descent, or gives back
what it does not hold on. -/
theorem run_cases (h : s.runThread t conflict pc = .ok s') :
    (∃ n, pc = .getNode n ∧ s' = (s.pin n.pid).goto t (.node n)) ∨
      (∃ dropLevel sentinel newPid pid level,
        pc = .node (.redrop dropLevel sentinel newPid pid level) ∧
        s'.pins = s.pins ∧ (s'.threads t).pc = .getNode (.inter sentinel newPid pid) ∧
          (∀ u, u ≠ t → s'.threads u = s.threads u) ∧
            s'.redrops = update s.redrops pid (s.redrops pid + 1)) ∨
        Gives s s' t pc.held (pc.redropping || staleRoot s pc) := by
  cases pc with
  | idle => exact absurd h (by simp [runThread])
  | done success results => exact absurd h (by simp [runThread])
  | loadRoot =>
      obtain rfl := Except.ok.inj h
      exact .inr (.inr (.keep rfl (by simp [PinPc.redropping])))
  | getNode n =>
      obtain rfl := Except.ok.inj h
      exact .inl ⟨n, rfl, rfl⟩
  | node n =>
      unfold runThread at h
      dsimp only at h
      split at h
      · by_cases hredrop : (PinPc.node n).redropping = false
        · exact .inr (.inr (gives_node h hredrop).mono)
        · cases n with
          | redrop dropLevel sentinel newPid pid level =>
              rcases gives_redrop h with hgives | hend
              · exact .inr (.inr hgives)
              · exact .inr (.inl ⟨dropLevel, sentinel, newPid, pid, level, rfl, hend⟩)
          | drop | leaf | unique | crab | inter | scan => exact absurd rfl hredrop
      · exact absurd h (by simp)
  | check pid visited insertPage search => exact .inr (.inr (gives_check h))
  | insertUnique page visited => exact .inr (.inr (gives_insertUnique h))
  | root level sentinel pid newPid => exact .inr (.inr (gives_root h))
  | reloadRoot dropLevel sentinel newPid =>
      obtain rfl := Except.ok.inj h
      exact .inr (.inr (.keep rfl (fun _ => rfl)))
  | follow pid results => exact .inr (.inr (gives_follow h))

/-- The law for one step of a thread: what it held and the pins after the step
are the pins before it and what it holds then, but for a second descent that
ends. -/
theorem run_ledger (h : s.runThread t conflict (s.threads t).pc = .ok s') (p : Nat)
    (hheld : (s.threads t).pc.held.count p ≤ s.pins p) :
    s'.pins p + (s.threads t).pc.held.count p + s.redrops p =
      s.pins p + (s'.threads t).pc.held.count p + s'.redrops p := by
  rcases run_cases h with ⟨n, hpc, rfl⟩ |
      ⟨dropLevel, sentinel, newPid, pid, level, hpc, hpins, hpc', -, hredrops⟩ | hgives
  · rw [hpc, goto_pc, goto_pins, pin_pins, goto_redrops]
    show s.pins p + [n.pid].count p + n.visited.count p + s.redrops p =
      s.pins p + ([n.pid] ++ n.visited).count p + s.redrops p
    rw [List.count_append]
    omega
  · rw [hpc, hpc', hpins, hredrops]
    by_cases hp : p = pid
    · subst hp
      simp [PinPc.held, NodePc.pid, NodePc.visited]
      omega
    · simp [PinPc.held, NodePc.pid, NodePc.visited, hp, Ne.symm hp]
  · obtain ⟨back, hpins, hcount⟩ := hgives.back
    have := hcount p
    rw [hpins, hgives.redrops]
    omega

theorem run_others (h : s.runThread t conflict pc = .ok s') (u : Nat) (hu : u ≠ t) :
    s'.threads u = s.threads u := by
  rcases run_cases h with ⟨n, -, rfl⟩ | ⟨_, _, _, _, _, -, -, -, hothers, -⟩ | hgives
  · exact goto_others _ _ _ hu
  · exact hothers u hu
  · exact hgives.others u hu

/-- A step is one of a thread inside its call, or it begins or ends a call. -/
theorem step_cases {a : PinAction} (h : s.step a = some s') :
    (∃ t conflicts, a = .run t conflicts ∧
      s.runThread t (fun tid => conflicts.contains tid) (s.threads t).pc = .ok s') ∨
    ∃ t, t = a.thread ∧ s'.pins = s.pins ∧ s'.redrops = s.redrops ∧
      (∀ u, u ≠ t → s'.threads u = s.threads u) ∧ (s.threads t).pc.held = [] ∧
        (s'.threads t).pc.held = [] ∧ (s'.threads t).pc.redropping = false := by
  cases a with
  | invoke t op =>
      simp only [PinnedIndex.step, Option.ite_none_right_eq_some] at h
      obtain ⟨hidle, h⟩ := h
      obtain rfl := Option.some.inj h
      exact .inr ⟨t, rfl, rfl, rfl, fun u hu => by simp [hu], by simp [hidle, PinPc.held],
        by simp [PinPc.held], by simp [PinPc.redropping]⟩
  | run t conflicts =>
      unfold PinnedIndex.step at h
      dsimp only at h
      split at h
      · rename_i hrun
        obtain rfl := Option.some.inj h
        exact .inl ⟨t, conflicts, rfl, hrun⟩
      · exact absurd h (by simp)
  | ret t =>
      unfold PinnedIndex.step at h
      dsimp only at h
      split at h
      · rename_i hdone
        obtain rfl := Option.some.inj h
        exact .inr ⟨t, rfl, rfl, rfl, fun u hu => goto_others _ _ _ hu, by simp [hdone, PinPc.held],
          by simp [PinPc.held], by simp [PinPc.redropping]⟩
      · exact absurd h (by simp)

/-- The invariant: the pins of a page are those of before, those of the threads
that hold it, and those that second descents have left. -/
def Balance (base : Nat → Nat) (s : PinnedIndex) : Prop :=
  ∀ p, ∃ n, HasTotal (fun t => (s.threads t).pc.held.count p) n ∧
    s.pins p = base p + s.redrops p + n

theorem Balance.step {a : PinAction} (h : Balance base s) (hstep : s.step a = some s') :
    Balance base s' := by
  intro p
  obtain ⟨n, htotal, hpins⟩ := h p
  rcases step_cases hstep with ⟨t, conflicts, -, hrun⟩ | ⟨t, -, hpins', hredrops, hothers,
    hheld, hheld', -⟩
  · have hle := htotal.le_total t
    have hledger := run_ledger hrun p (by omega)
    refine ⟨n + (s'.threads t).pc.held.count p - (s.threads t).pc.held.count p,
      htotal.step t (fun u hu => ?_) (by omega), by omega⟩
    rw [run_others hrun u hu]
  · refine ⟨n, htotal.step t (fun u hu => ?_) ?_, by rw [hpins', hpins, hredrops]⟩
    · rw [hothers u hu]
    · rw [hheld, hheld']

end Ledger

end PinnedIndex

open PinnedIndex

/-- At any time of any run the pins of a page are those of before the calls, one
for each time that a thread holds the page, and one for each second descent that
has ended at it. -/
theorem pins_conserved {base : Nat → Nat} {s : PinnedIndex} (hs : (pinSystem base).Reachable s) :
    Balance base s := by
  refine hs.invariant (fun s hinit p => ?_) (fun s a s' h _ hstep => h.step hstep)
  obtain rfl := hinit
  exact ⟨0, .zero, rfl⟩

/-- The page that a thread has split without a stack is the root at the root
section: there is no second descent. -/
def RootKept (s : PinnedIndex) : PinAction → Prop
  | .run t _ => staleRoot s (s.threads t).pc = false
  | _ => True

/-- No second descent is on its way, and none has been. -/
def NoRedrop (s : PinnedIndex) : Prop :=
  (∀ t, (s.threads t).pc.redropping = false) ∧ ∀ p, s.redrops p = 0

theorem NoRedrop.step {s s' : PinnedIndex} {a : PinAction} (h : NoRedrop s) (hkept : RootKept s a)
    (hstep : s.step a = some s') : NoRedrop s' := by
  obtain ⟨hstraight, hredrops⟩ := h
  -- only the thread of the step has moved
  have hall : ∀ t, (∀ u, u ≠ t → s'.threads u = s.threads u) →
      (s'.threads t).pc.redropping = false →
      ∀ u, (s'.threads u).pc.redropping = false := by
    intro t hothers ht u
    by_cases hu : u = t
    · rw [hu]
      exact ht
    · rw [hothers u hu]
      exact hstraight u
  rcases step_cases hstep with ⟨t, conflicts, rfl, hrun⟩ | ⟨t, -, -, hredrops', hothers, -, -, ht⟩
  · rcases run_cases hrun with ⟨n, hpc, rfl⟩ | ⟨_, _, _, _, _, hpc, -⟩ | hgives
    · refine ⟨hall t (fun u hu => goto_others _ _ _ hu) ?_, hredrops⟩
      have := hstraight t
      rw [hpc] at this
      rw [goto_pc]
      cases n <;> first | rfl | exact this
    · exact absurd (hstraight t) (by simp [hpc, PinPc.redropping])
    · refine ⟨hall t hgives.others ?_, fun p => by rw [hgives.redrops, hredrops p]⟩
      by_contra hr
      have := hgives.straight (by simpa using hr)
      rw [hstraight t, show staleRoot s (s.threads t).pc = false from hkept] at this
      exact absurd this (by simp)
  · exact ⟨hall t hothers ht, fun p => by rw [hredrops', hredrops p]⟩

/-- When all calls have returned every page has the pins of before, on the runs
without a second descent. -/
theorem pins_balanced (base : Nat → Nat) (s : PinnedIndex)
    (hs : (pinSystem base).ReachableBy RootKept s)
    (hidle : ∀ t, (s.threads t).pc = .idle) (p : Nat) : s.pins p = base p := by
  have hredrops : NoRedrop s := by
    refine hs.invariant (fun s hinit => ?_) (fun s a s' h hkept hstep => h.step hkept hstep)
    obtain rfl := hinit
    exact ⟨fun _ => rfl, fun _ => rfl⟩
  obtain ⟨n, htotal, hpins⟩ := pins_conserved (hs.mono fun _ _ _ => trivial) p
  have hn := htotal.total_zero fun t => by simp [hidle t, PinPc.held]
  have := hredrops.2 p
  omega

/-! ## Schedules -/

instance (s : PinnedIndex) (a : PinAction) : Decidable (RootKept s a) :=
  match a with
  | .run t _ => inferInstanceAs (Decidable (staleRoot s (s.threads t).pc = false))
  | .invoke .. | .ret _ => inferInstanceAs (Decidable True)

/-- Only the threads 0 and 1 are running. -/
def TwoThreads (C : PinnedIndex → PinAction → Prop) (s : PinnedIndex) (a : PinAction) : Prop :=
  C s a ∧ a.thread < 2

instance (C : PinnedIndex → PinAction → Prop) [∀ s a, Decidable (C s a)] (s : PinnedIndex)
    (a : PinAction) : Decidable (TwoThreads C s a) :=
  inferInstanceAs (Decidable (_ ∧ _))

theorem twoThreads_idle {C : PinnedIndex → PinAction → Prop} {base : Nat → Nat} {s : PinnedIndex}
    (hs : (pinSystem base).ReachableBy (TwoThreads C) s) (h₀ : (s.threads 0).pc = .idle)
    (h₁ : (s.threads 1).pc = .idle) (t : Nat) : (s.threads t).pc = .idle := by
  have hrest : ∀ u, 2 ≤ u → (s.threads u).pc = .idle := by
    refine hs.invariant (P := fun s => ∀ u, 2 ≤ u → (s.threads u).pc = .idle)
      (fun s hinit u _ => ?_) (fun s a s' h hc hstep u hu => ?_)
    · obtain rfl := hinit
      rfl
    · have hne : u ≠ a.thread := by
        have := hc.2
        omega
      rcases step_cases hstep with ⟨t, conflicts, rfl, hrun⟩ | ⟨t, rfl, -, -, hothers, -⟩
      · rw [run_others hrun u hne]
        exact h u hu
      · rw [hothers u hne]
        exact h u hu
  by_cases ht : t = 0
  · rw [ht]
    exact h₀
  by_cases ht : t = 1
  · rw [ht]
    exact h₁
  exact hrest t (by omega)

/-- Thread `t` makes a call of `n` steps. -/
def pinCall (t : Nat) (op : PinOp) (n : Nat) (conflicts : List Nat) : List PinAction :=
  .invoke t op :: List.replicate n (.run t conflicts) ++ [.ret t]

/-- The root leaf with the columns `wide 10`, `wide 20`, … to `wide 90`. -/
def nineWide : List PinAction :=
  (List.range 9).flatMap fun i => pinCall 0 (.insert (BTreeIndex.wide (10 * i + 10)) 1) 4 []

/-- A unique insert that splits the root, another one, one that is in conflict,
a delete and a lookup. -/
def manyCalls : List PinAction :=
  nineWide ++ pinCall 0 (.insertUnique (BTreeIndex.wide 100) 1) 7 [] ++
    pinCall 1 (.insertUnique [byte 200] 7) 8 [] ++ pinCall 1 (.insertUnique [byte 200] 8) 7 [7] ++
    pinCall 0 (.delete [byte 200] 7) 6 [] ++ pinCall 1 (.get [byte 200]) 6 []

theorem run_manyCalls : ((pinSystem fun _ => 7).exec (TwoThreads RootKept) (init fun _ => 7)
    manyCalls).map (fun s => (s.rootId, (s.threads 0).pc, (s.threads 1).pc)) =
      some (3, .idle, .idle) := by
  decide +kernel

theorem pins_balanced_conflict : ∃ s, (pinSystem fun _ => 7).ReachableBy RootKept s ∧
    s.rootId = 3 ∧ ∀ p, s.pins p = 7 := by
  obtain ⟨s, hexec, hview⟩ := Option.map_eq_some_iff.mp run_manyCalls
  obtain ⟨hroot, hview⟩ := Prod.mk.inj hview
  obtain ⟨h₀, h₁⟩ := Prod.mk.inj hview
  have hs : (pinSystem fun _ => 7).ReachableBy (TwoThreads RootKept) s :=
    ⟨_, rfl, TSys.Steps.of_exec _ hexec⟩
  have hkept := hs.mono fun _ _ h => h.1
  exact ⟨s, hkept, hroot, pins_balanced _ s hkept (twoThreads_idle hs h₀ h₁)⟩

/-- Thread 1 has descended to the root leaf when thread 0 splits it and fills its
left half. Its own split then finds another root. -/
def splitUnderInsert : List PinAction :=
  .invoke 1 (.insert (BTreeIndex.wide 0) 1) :: List.replicate 3 (.run 1 []) ++ nineWide ++
    pinCall 0 (.insert (BTreeIndex.wide 100) 1) 5 [] ++
    ((List.range 3).flatMap fun i => pinCall 0 (.insert (BTreeIndex.wide (i + 1)) 1) 6 []) ++
    List.replicate 7 (.run 1 []) ++ [.ret 1]

theorem run_splitUnderInsert :
    ((pinSystem fun _ => 0).exec (TwoThreads TSys.Always) (init fun _ => 0)
    splitUnderInsert).map (fun s => (s.pins 3, (s.threads 0).pc, (s.threads 1).pc)) =
      some (1, .idle, .idle) := by
  decide +kernel

/-- The new root stays pinned for ever. -/
theorem pin_leaked : ¬ ∀ base s, (pinSystem base).Reachable s →
    (∀ t, (s.threads t).pc = .idle) → ∀ p, s.pins p = base p := by
  intro hall
  obtain ⟨s, hexec, hview⟩ := Option.map_eq_some_iff.mp run_splitUnderInsert
  obtain ⟨hpins, hview⟩ := Prod.mk.inj hview
  obtain ⟨h₀, h₁⟩ := Prod.mk.inj hview
  have hs : (pinSystem fun _ => 0).ReachableBy (TwoThreads TSys.Always) s :=
    ⟨_, rfl, TSys.Steps.of_exec _ hexec⟩
  have := hall _ s (hs.mono fun _ _ h => h.1) (twoThreads_idle hs h₀ h₁) 3
  omega

end Db7
