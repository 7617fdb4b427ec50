import Db7.Lib.TSys
import Mathlib.Algebra.Group.Nat.Defs

/-!
# The buffer pool at the granularity of its atomic steps

Each load, store or read-modify-write of a frame's `id_`, `ref_count_` and
`flags_`, each acquisition or release of a frame latch and each latched
operation of the partition maps is one step of one thread.

* `Pin` looks its page up, pins the frame and checks the id (`PageVisit`), or
  evicts a frame (`GetVictim`) and publishes it in the map; when another thread
  was first it gives the frame back (`UndoState`) and visits the other's;
* `Reserve` evicts a frame for a page that the free space manager hands out;
* a read completes in `Page::SignalIO`, under the frame latch.

A page id always hashes to the same partition, so the partition maps are one
map here. `Unpin` is a single decrement.
-/

namespace Db7

open Lib Function

/-- `BUFFER_POOL_PAGE_NUM`. -/
def bufferPoolPageNum : Nat := 80000

/-- Unsigned 32-bit wrap-around. -/
def u32 (n : Nat) : Nat := n % 2 ^ 32

/-- `x--` on a `u32`. -/
def u32Pred (n : Nat) : Nat := if n = 0 then 2 ^ 32 - 1 else n - 1

/-- `PageIdentifier`; the id of an empty frame is 0. -/
structure PageIdentifier where
  tblId : Nat
  pid : Nat
  deriving DecidableEq, Repr

/-- A thread that calls the pool or completes reads. -/
abbrev ThreadId := Nat

/-- `Page` without its data: `id_`, `ref_count_`, the two bits of `flags_`, and
the owner of `latch_`. -/
structure Frame where
  id : PageIdentifier
  refCount : Nat
  dirty : Bool
  ioInProgress : Bool
  latch : Option ThreadId

/-- A call of `GetVictim`: the page to load, and whether a read is to follow
(`Pin`) or not (`Reserve`). -/
structure VictimCall where
  id : PageIdentifier
  isIO : Bool
  deriving DecidableEq, Repr

/-- Where a thread is inside a call of the pool. `f` is a frame index, `old` is
`victim_page_id`, and `retry` tells `PageVisit` after `UndoState` from the one
on the fast path. -/
inductive PoolPc
  | idle
  | lookup (id : PageIdentifier)
  | visitPin (id : PageIdentifier) (f : Nat) (retry : Bool)
  | visitCheck (id : PageIdentifier) (f : Nat) (retry : Bool)
  | visitUnpin (id : PageIdentifier) (f : Nat) (retry : Bool)
  | sweep (call : VictimCall)
  | tryLatch (call : VictimCall) (f : Nat)
  | checkPinned (call : VictimCall) (f : Nat)
  | checkDirty (call : VictimCall) (f : Nat)
  | checkIOInProgress (call : VictimCall) (f : Nat)
  | skip (call : VictimCall) (f : Nat)
  | readId (call : VictimCall) (f : Nat)
  | setId (call : VictimCall) (f : Nat) (old : PageIdentifier)
  | pinVictim (call : VictimCall) (f : Nat) (old : PageIdentifier)
  | setIOInProgress (call : VictimCall) (f : Nat) (old : PageIdentifier)
  | unlatch (call : VictimCall) (f : Nat) (old : PageIdentifier)
  | put (call : VictimCall) (f : Nat) (old : PageIdentifier)
  | delete (call : VictimCall) (f : Nat) (old : PageIdentifier)
  | enqueue (call : VictimCall) (f : Nat)
  | undoLatch (id : PageIdentifier) (f : Nat) (old : PageIdentifier) (new : Nat)
  | undoUnpin (id : PageIdentifier) (f : Nat) (old : PageIdentifier) (new : Nat)
  | undoSetId (id : PageIdentifier) (f : Nat) (old : PageIdentifier) (new : Nat)
  | undoClearIOInProgress (id : PageIdentifier) (f : Nat) (new : Nat)
  | undoUnlatch (id : PageIdentifier) (f : Nat) (new : Nat)
  | signalLatch (f : Nat)
  | signalClear (f : Nat)
  | signalUnlatch (f : Nat)
  deriving DecidableEq, Repr

/-- A thread: its program counter and the pins that returned to it and that it
has not given back, each with the page it asked for. -/
structure PoolThread where
  pc : PoolPc
  held : List (PageIdentifier × Nat)

/-- `pages_`, the partition maps, `sweep_head_`, the counters of
`FreeSpaceManagerIndex`, the reads under way, and the threads. -/
structure Pool where
  frames : Nat → Frame
  map : PageIdentifier → Option Nat
  sweepHead : Nat
  nextPid : Nat → Nat
  reads : List Nat
  threads : ThreadId → PoolThread

/-- What a scheduler may do next; `run t` is the next step of the call that `t`
is inside of, `signal t f` lets `t` complete a read into frame `f`. -/
inductive PoolAction
  | pin (t : ThreadId) (id : PageIdentifier)
  | reserve (t : ThreadId) (tbl : Nat)
  | unpin (t : ThreadId) (id : PageIdentifier) (f : Nat)
  | signal (t : ThreadId) (f : Nat)
  | run (t : ThreadId)

namespace Frame

def setId (x : Frame) (id : PageIdentifier) : Frame := { x with id := id }

/-- `ref_count_++`. -/
def pin (x : Frame) : Frame := { x with refCount := u32 (x.refCount + 1) }

/-- `ref_count_--`. -/
def unpin (x : Frame) : Frame := { x with refCount := u32Pred x.refCount }

def setIOInProgress (x : Frame) : Frame := { x with ioInProgress := true }

def clearIOInProgress (x : Frame) : Frame := { x with ioInProgress := false }

def setLatch (x : Frame) (owner : Option ThreadId) : Frame := { x with latch := owner }

section Fields

variable (x : Frame) (id : PageIdentifier) (owner : Option ThreadId)

@[simp] theorem setId_id : (x.setId id).id = id := rfl
@[simp] theorem setId_refCount : (x.setId id).refCount = x.refCount := rfl
@[simp] theorem setId_latch : (x.setId id).latch = x.latch := rfl
@[simp] theorem pin_id : x.pin.id = x.id := rfl
@[simp] theorem pin_latch : x.pin.latch = x.latch := rfl
@[simp] theorem unpin_id : x.unpin.id = x.id := rfl
@[simp] theorem unpin_latch : x.unpin.latch = x.latch := rfl
@[simp] theorem setIOInProgress_id : x.setIOInProgress.id = x.id := rfl
@[simp] theorem setIOInProgress_refCount : x.setIOInProgress.refCount = x.refCount := rfl
@[simp] theorem setIOInProgress_latch : x.setIOInProgress.latch = x.latch := rfl
@[simp] theorem clearIOInProgress_id : x.clearIOInProgress.id = x.id := rfl
@[simp] theorem clearIOInProgress_refCount : x.clearIOInProgress.refCount = x.refCount := rfl
@[simp] theorem clearIOInProgress_latch : x.clearIOInProgress.latch = x.latch := rfl
@[simp] theorem setLatch_id : (x.setLatch owner).id = x.id := rfl
@[simp] theorem setLatch_refCount : (x.setLatch owner).refCount = x.refCount := rfl
@[simp] theorem setLatch_latch : (x.setLatch owner).latch = owner := rfl

end Fields

end Frame

namespace Pool

/-- Move a thread. -/
def goto (s : Pool) (t : ThreadId) (pc : PoolPc) : Pool :=
  { s with threads := update s.threads t { s.threads t with pc := pc } }

def setFrame (s : Pool) (f : Nat) (x : Frame) : Pool :=
  { s with frames := update s.frames f x }

/-- The call returns the frame to its caller. -/
def give (s : Pool) (t : ThreadId) (id : PageIdentifier) (f : Nat) : Pool :=
  { s with threads := update s.threads t ⟨.idle, (id, f) :: (s.threads t).held⟩ }

/-- `partitions_.Put`: `emplace`, and the frame that is in the map then. -/
def putMap (s : Pool) (id : PageIdentifier) (f : Nat) : Pool × Option Nat :=
  match s.map id with
  | none => ({ s with map := update s.map id (some f) }, none)
  | some new => (s, some new)

/-- `partitions_.Delete`. -/
def deleteMap (s : Pool) (id : PageIdentifier) (f : Nat) : Pool :=
  if s.map id = some f then { s with map := update s.map id none } else s

/-- The next step of thread `t`; `n` is the number of frames the sweep runs
over. A step that waits for a latch, or that the code does not allow
(`DB7_ASSERT`, `DB7_UNREACHABLE`), is `none`. -/
def runThread (n : Nat) (s : Pool) (t : ThreadId) : PoolPc → Option Pool
  | .idle => none
  -- `Pin`
  | .lookup id =>
      match s.map id with
      | some f => some (s.goto t (.visitPin id f false))
      | none => some (s.goto t (.sweep ⟨id, true⟩))
  -- `PageVisit`
  | .visitPin id f retry =>
      some ((s.setFrame f (s.frames f).pin).goto t (.visitCheck id f retry))
  | .visitCheck id f retry =>
      if (s.frames f).id = id then some (s.give t id f)
      else some (s.goto t (.visitUnpin id f retry))
  | .visitUnpin id f retry =>
      some ((s.setFrame f (s.frames f).unpin).goto t
        (if retry then .lookup id else .sweep ⟨id, true⟩))
  -- `GetVictim`
  | .sweep call =>
      some ({ s with sweepHead := u32 (s.sweepHead + 1) }.goto t
        (.tryLatch call (s.sweepHead % n)))
  | .tryLatch call f =>
      if (s.frames f).latch = none then
        some ((s.setFrame f ((s.frames f).setLatch (some t))).goto t (.checkPinned call f))
      else some (s.goto t (.sweep call))
  | .checkPinned call f =>
      some (s.goto t (if (s.frames f).refCount > 0 then .skip call f else .checkDirty call f))
  | .checkDirty call f =>
      some (s.goto t (if (s.frames f).dirty then .skip call f else .checkIOInProgress call f))
  | .checkIOInProgress call f =>
      some (s.goto t (if (s.frames f).ioInProgress then .skip call f else .readId call f))
  | .skip call f =>
      some ((s.setFrame f ((s.frames f).setLatch none)).goto t (.sweep call))
  | .readId call f => some (s.goto t (.setId call f (s.frames f).id))
  | .setId call f old =>
      some ((s.setFrame f ((s.frames f).setId call.id)).goto t (.pinVictim call f old))
  | .pinVictim call f old =>
      some ((s.setFrame f (s.frames f).pin).goto t
        (if call.isIO then .setIOInProgress call f old else .unlatch call f old))
  | .setIOInProgress call f old =>
      some ((s.setFrame f (s.frames f).setIOInProgress).goto t (.unlatch call f old))
  | .unlatch call f old =>
      some ((s.setFrame f ((s.frames f).setLatch none)).goto t (.put call f old))
  -- the rest of `Pin` and `Reserve`
  | .put call f old =>
      match s.putMap call.id f with
      | (s', none) => some (s'.goto t (.delete call f old))
      | (s', some new) =>
          if call.isIO then some (s'.goto t (.undoLatch call.id f old new)) else none
  | .delete call f old =>
      if call.isIO then some ((s.deleteMap old f).goto t (.enqueue call f))
      else some ((s.deleteMap old f).give t call.id f)
  | .enqueue call f => some ({ s with reads := f :: s.reads }.give t call.id f)
  -- `UndoState`
  | .undoLatch id f old new =>
      if (s.frames f).latch = none then
        some ((s.setFrame f ((s.frames f).setLatch (some t))).goto t (.undoUnpin id f old new))
      else none
  | .undoUnpin id f old new =>
      some ((s.setFrame f (s.frames f).unpin).goto t (.undoSetId id f old new))
  | .undoSetId id f old new =>
      some ((s.setFrame f ((s.frames f).setId old)).goto t (.undoClearIOInProgress id f new))
  | .undoClearIOInProgress id f new =>
      some ((s.setFrame f (s.frames f).clearIOInProgress).goto t (.undoUnlatch id f new))
  | .undoUnlatch id f new =>
      some ((s.setFrame f ((s.frames f).setLatch none)).goto t (.visitPin id new true))
  -- `SignalIO`
  | .signalLatch f =>
      if (s.frames f).latch = none then
        some ((s.setFrame f ((s.frames f).setLatch (some t))).goto t (.signalClear f))
      else none
  | .signalClear f =>
      if (s.frames f).ioInProgress ∧ (s.frames f).refCount > 0 then
        some ((s.setFrame f (s.frames f).clearIOInProgress).goto t (.signalUnlatch f))
      else none
  | .signalUnlatch f =>
      some ((s.setFrame f ((s.frames f).setLatch none)).goto t .idle)

/-- A thread outside the pool may call `Pin`, `Reserve` or `Unpin`, or complete
a read. -/
def step (n : Nat) (s : Pool) : PoolAction → Option Pool
  | .pin t id =>
      if (s.threads t).pc = .idle ∧ id.pid ≠ 0 ∧ id.pid ≠ 2 ^ 32 - 1 then
        some (s.goto t (.lookup id))
      else none
  | .reserve t tbl =>
      if (s.threads t).pc = .idle ∧ s.nextPid tbl < bufferPoolPageNum then
        some ({ s with nextPid := update s.nextPid tbl (u32 (s.nextPid tbl + 1)) }.goto t
          (.sweep ⟨⟨tbl, s.nextPid tbl⟩, false⟩))
      else none
  | .unpin t id f =>
      if (s.threads t).pc = .idle ∧ (id, f) ∈ (s.threads t).held then
        some { s.setFrame f (s.frames f).unpin with
          threads := update s.threads t ⟨.idle, (s.threads t).held.erase (id, f)⟩ }
      else none
  | .signal t f =>
      if (s.threads t).pc = .idle ∧ f ∈ s.reads then
        some ({ s with reads := s.reads.erase f }.goto t (.signalLatch f))
      else none
  | .run t => s.runThread n t (s.threads t).pc

/-- The pool as its constructor leaves it. -/
def init : Pool where
  frames := fun _ => ⟨⟨0, 0⟩, 0, false, false, none⟩
  map := fun _ => none
  sweepHead := 0
  nextPid := fun _ => 1
  reads := []
  threads := fun _ => ⟨.idle, []⟩

end Pool

/-- The pool as a transition system. -/
def poolSystem (n : Nat) : TSys Pool PoolAction := ⟨fun s => s = Pool.init, Pool.step n⟩

end Db7
