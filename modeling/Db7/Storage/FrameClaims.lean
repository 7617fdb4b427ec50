import Db7.Storage.PinnedFrames

/-!
# Claimed frames

`GetVictim` claims a frame when it has found it unpinned, and writes the new id into it while
the map still leads to it from the old one; then either `Put` publishes the new id and `Delete`
removes the old, or `UndoState` restores the old id.

* **callers** (`PoolUse`): the pool, whose callers wait for their reads before `Unpin`;
* **roles** (`PoolPc.role`): what a call has at stake at each of its steps, in one table;
* **steps** (`Pool.Effect`): what a step does to ids, flags, map and reads, by roles;
* **one claim** (`OneClaim`): a frame is claimed by one call, or one read into it is under way,
  and its flag is set exactly when the claim has raised it.
-/

namespace Db7

open Lib Function

/-! ## Callers -/

/-- The pool and, for each thread, the pins that `Pin` returned to it and whose frame it has
not yet seen without a read under way. -/
structure PoolUse where
  pool : Pool
  unwaited : ThreadId → List (PageIdentifier × Nat)

/-- A step of the pool, or `WaitIO` on a pinned frame. -/
inductive PoolUseAction
  | call (a : PoolAction)
  | wait (t : ThreadId) (id : PageIdentifier) (f : Nat)

/-- The pin that the next step of a `Pin` returns. -/
def Pool.returnsPin (s : Pool) : PoolPc → Option (PageIdentifier × Nat)
  | .visitCheck id f _ => if (s.frames f).id = id then some (id, f) else none
  | .enqueue call f => some (call.id, f)
  | _ => none

namespace PoolUse

/-- A thread waits for its read before it calls `Unpin`. -/
def step (n : Nat) (u : PoolUse) : PoolUseAction → Option PoolUse
  | .call (.run t) =>
      (u.pool.step n (.run t)).map fun s => ⟨s, update u.unwaited t
        ((u.pool.returnsPin (u.pool.threads t).pc).toList ++ u.unwaited t)⟩
  | .call (.unpin t id f) =>
      if (u.unwaited t).count (id, f) < (u.pool.threads t).held.count (id, f) then
        (u.pool.step n (.unpin t id f)).map fun s => ⟨s, u.unwaited⟩
      else none
  | .call a => (u.pool.step n a).map fun s => ⟨s, u.unwaited⟩
  | .wait t id f =>
      if (u.pool.threads t).pc = .idle ∧ (u.unwaited t).contains (id, f) ∧
        (u.pool.frames f).ioInProgress = false then
        some { u with unwaited := update u.unwaited t ((u.unwaited t).erase (id, f)) }
      else none

/-- The pool as its constructor leaves it. -/
def init : PoolUse := ⟨.init, fun _ => []⟩

/-- The callers and the pool as a transition system. -/
def system (n : Nat) : TSys PoolUse PoolUseAction := ⟨fun u => u = init, step n⟩

/-- No frame is pinned 2^32 times at once. -/
def NoOverflow (u : PoolUse) : PoolUseAction → Prop
  | .call a => u.pool.NoPinOverflow a
  | .wait .. => True

/-- All calls have returned and all pins are released. -/
def Quiet (u : PoolUse) : Prop := ∀ t, u.pool.threads t = ⟨.idle, []⟩

/-- No page is in two frames, the map leads to a frame from the page that it carries and from
no other, and no pin and no flag is left over. -/
structure Consistent (u : PoolUse) : Prop where
  unique : ∀ f g, (u.pool.frames f).id = (u.pool.frames g).id →
    (u.pool.frames f).id ≠ ⟨0, 0⟩ → f = g
  map : ∀ id f, id ≠ ⟨0, 0⟩ → (u.pool.map id = some f ↔ (u.pool.frames f).id = id)
  empty : u.pool.map ⟨0, 0⟩ = none
  refCount : ∀ f, (u.pool.frames f).refCount = 0
  ioInProgress : ∀ f, (u.pool.frames f).ioInProgress = false

end PoolUse

/-! ## What a call has at stake -/

/-- What holds of a frame while a call is at a program counter: it has it to itself
(`takes`), has set its flag (`raises`), relies on its id (`carries`), has put its id over
that of the page whose home the frame still is (`hides`), is about to remove the map entry of
a page whose home the frame is no longer (`removes`), has made it the home of its page
(`fills`), completes a read into it (`completes`). -/
structure Role where
  takes : Option Nat := none
  raises : Option Nat := none
  carries : Option (Nat × PageIdentifier) := none
  hides : Option (Nat × PageIdentifier) := none
  removes : Option (Nat × PageIdentifier) := none
  fills : Option (Nat × PageIdentifier) := none
  completes : Option Nat := none

namespace PoolPc

def role : PoolPc → Role
  | checkDirty _ f | checkIOInProgress _ f | readId _ f => { takes := some f }
  | setId _ f old => { takes := some f, carries := some (f, old) }
  | pinVictim call f old | setIOInProgress call f old =>
      { takes := some f, carries := some (f, call.id), hides := some (f, old) }
  | unlatch call f old | put call f old =>
      { takes := some f, raises := if call.isIO then some f else none, carries := some (f, call.id),
        hides := some (f, old) }
  | delete call f old =>
      { takes := some f, raises := if call.isIO then some f else none, carries := some (f, call.id),
        removes := some (f, old), fills := some (f, call.id) }
  | enqueue call f =>
      { takes := some f, raises := some f, carries := some (f, call.id),
        fills := some (f, call.id) }
  | undoLatch id f old _ | undoUnpin id f old _ | undoSetId id f old _ =>
      { takes := some f, raises := some f, carries := some (f, id), hides := some (f, old) }
  | undoClearIOInProgress _ f _ => { takes := some f, raises := some f }
  | signalLatch f | signalClear f => { takes := some f, raises := some f, completes := some f }
  | _ => {}

/-- What the call is about: a page, and a read where one is to follow. -/
def Ok : PoolPc → Prop
  | idle | signalLatch _ | signalClear _ | signalUnlatch _ => True
  | lookup id | visitPin id _ _ | visitCheck id _ _ | visitUnpin id _ _ | undoLatch id _ _ _
  | undoUnpin id _ _ _ | undoSetId id _ _ _ | undoClearIOInProgress id _ _ | undoUnlatch id _
      _ => id.pid ≠ 0
  | sweep call | tryLatch call _ | checkPinned call _ | checkDirty call _ | checkIOInProgress call _
  | skip call _ | readId call _ | setId call _ _ | pinVictim call _ _ | unlatch call _ _
  | put call _ _ | delete call _ _ => call.id.pid ≠ 0
  | setIOInProgress call _ _ | enqueue call _ => call.id.pid ≠ 0 ∧ call.isIO = true

section Role

variable {pc : PoolPc} {f : Nat} {id : PageIdentifier}

/-- A claimed frame is pinned or latched by the call, or a read into it completes. -/
theorem pinned_of_takes (h : pc.role.takes = some f) :
    pc.pinned = some f ∨ pc.latched = some f ∨ pc.role.completes = some f := by
  cases pc <;> simp_all [role, pinned, latched]

theorem takes_of_raises (h : pc.role.raises = some f) : pc.role.takes = some f := by
  cases pc <;> simp_all [role]

theorem takes_of_carries (h : pc.role.carries = some (f, id)) : pc.role.takes = some f := by
  cases pc <;> simp_all [role]

theorem takes_of_hides (h : pc.role.hides = some (f, id)) : pc.role.takes = some f := by
  cases pc <;> simp_all [role]

theorem takes_of_removes (h : pc.role.removes = some (f, id)) : pc.role.takes = some f := by
  cases pc <;> simp_all [role]

theorem takes_of_fills (h : pc.role.fills = some (f, id)) : pc.role.takes = some f := by
  cases pc <;> simp_all [role]

theorem raises_of_completes (h : pc.role.completes = some f) : pc.role.raises = some f := by
  cases pc <;> simp_all [role]

end Role

end PoolPc

namespace Pool

/-! ## What a step does -/

/-- The ids of the frames. -/
def ids (s : Pool) (f : Nat) : PageIdentifier := (s.frames f).id

/-- The I/O flags of the frames. -/
def raised (s : Pool) (f : Nat) : Bool := (s.frames f).ioInProgress

/-- What a step that takes a thread from `pc` to `pc'` does to the ids, the flags, the map and
the reads. -/
inductive Effect (s s' : Pool) (pc pc' : PoolPc) : Prop
  | quiet (hrole : pc'.role = pc.role) (hids : s'.ids = s.ids) (hraised : s'.raised = s.raised)
      (hmap : s'.map = s.map) (hreads : s'.reads = s.reads)
  | take (f : Nat) (hrole : pc.role = {}) (hrole' : pc'.role = { takes := some f })
      (hzero : (s.frames f).refCount = 0) (hlatched : pc.latched = some f) (hids : s'.ids = s.ids)
      (hraised : s'.raised = s.raised) (hmap : s'.map = s.map) (hreads : s'.reads = s.reads)
  | release (f : Nat) (hrole : pc.role = { takes := some f }) (hrole' : pc'.role = {})
      (hids : s'.ids = s.ids) (hraised : s'.raised = s.raised) (hmap : s'.map = s.map)
      (hreads : s'.reads = s.reads)
  | readId (call : VictimCall) (f : Nat) (hpc : pc = .readId call f)
    (hpc' : pc' = .setId call f (s.ids f))
      (hids : s'.ids = s.ids) (hraised : s'.raised = s.raised) (hmap : s'.map = s.map)
      (hreads : s'.reads = s.reads)
  | setId (call : VictimCall) (f : Nat) (old : PageIdentifier) (hpc : pc = .setId call f old)
      (hpc' : pc' = .pinVictim call f old) (hids : s'.ids = update s.ids f call.id)
      (hraised : s'.raised = s.raised) (hmap : s'.map = s.map) (hreads : s'.reads = s.reads)
  | raise (call : VictimCall) (f : Nat) (old : PageIdentifier)
    (hpc : pc = .setIOInProgress call f old)
      (hpc' : pc' = .unlatch call f old) (hids : s'.ids = s.ids)
      (hraised : s'.raised = update s.raised f true) (hmap : s'.map = s.map)
        (hreads : s'.reads = s.reads)
  | publish (call : VictimCall) (f : Nat) (old : PageIdentifier) (hpc : pc = .put call f old)
      (hpc' : pc' = .delete call f old) (hnone : s.map call.id = none) (hids : s'.ids = s.ids)
      (hraised : s'.raised = s.raised) (hmap : s'.map = update s.map call.id (some f))
      (hreads : s'.reads = s.reads)
  | remove (call : VictimCall) (f : Nat) (old : PageIdentifier) (hpc : pc = .delete call f old)
      (hpc' : call.isIO = true ∧ pc' = .enqueue call f ∨ call.isIO = false ∧ pc' = .idle)
      (hids : s'.ids = s.ids) (hraised : s'.raised = s.raised)
      (hmap : s'.map = if s.map old = some f then update s.map old none else s.map)
      (hreads : s'.reads = s.reads)
  | enqueue (call : VictimCall) (f : Nat) (hpc : pc = .enqueue call f) (hpc' : pc' = .idle)
      (hids : s'.ids = s.ids) (hraised : s'.raised = s.raised) (hmap : s'.map = s.map)
      (hreads : s'.reads = f :: s.reads)
  | restore (id : PageIdentifier) (f : Nat) (old : PageIdentifier) (new : Nat)
      (hpc : pc = .undoSetId id f old new) (hpc' : pc' = .undoClearIOInProgress id f new)
      (hids : s'.ids = update s.ids f old) (hraised : s'.raised = s.raised) (hmap : s'.map = s.map)
      (hreads : s'.reads = s.reads)
  | clear (f : Nat) (hpc : (∃ id new, pc = .undoClearIOInProgress id f new) ∨ pc = .signalClear f)
      (hrole' : pc'.role = {}) (hids : s'.ids = s.ids)
        (hraised : s'.raised = update s.raised f false)
      (hmap : s'.map = s.map) (hreads : s'.reads = s.reads)
  | signal (f : Nat) (hpc : pc = .idle) (hpc' : pc' = .signalLatch f) (hmem : f ∈ s.reads)
      (hids : s'.ids = s.ids) (hraised : s'.raised = s.raised) (hmap : s'.map = s.map)
      (hreads : s'.reads = s.reads.erase f)

section Views

variable {s : Pool} {t : ThreadId} {f : Nat} {x : Frame} {pc : PoolPc} {id : PageIdentifier}

@[simp] theorem goto_pc : ((s.goto t pc).threads t).pc = pc := by simp [goto]

@[simp] theorem give_pc : ((s.give t id f).threads t).pc = .idle := by simp [give]

theorem ids_setFrame : (s.setFrame f x).ids = update s.ids f x.id := by
  funext g
  by_cases hg : g = f
  · subst hg
    simp [ids, setFrame]
  · simp [ids, setFrame, hg]

theorem raised_setFrame : (s.setFrame f x).raised = update s.raised f x.ioInProgress := by
  funext g
  by_cases hg : g = f
  · subst hg
    simp [raised, setFrame]
  · simp [raised, setFrame, hg]

theorem ids_setFrame_same (hx : x.id = (s.frames f).id) : (s.setFrame f x).ids = s.ids := by
  rw [ids_setFrame, hx]
  exact update_eq_self f s.ids

theorem raised_setFrame_same (hx : x.ioInProgress = (s.frames f).ioInProgress) :
    (s.setFrame f x).raised = s.raised := by
  rw [raised_setFrame, hx]
  exact update_eq_self f s.raised

/-- A step that only moves the thread. -/
theorem effect_goto {pc' : PoolPc} (hrole : pc'.role = pc.role) :
    Effect s (s.goto t pc') pc ((s.goto t pc').threads t).pc :=
  .quiet (by rw [goto_pc, hrole]) rfl rfl rfl rfl

/-- A step that changes the pin count or the latch of a frame. -/
theorem effect_frame {pc' : PoolPc} (hrole : pc'.role = pc.role) (hid : x.id = (s.frames f).id)
    (hio : x.ioInProgress = (s.frames f).ioInProgress) :
    Effect s ((s.setFrame f x).goto t pc') pc (((s.setFrame f x).goto t pc').threads t).pc :=
  .quiet (by rw [goto_pc, hrole]) (ids_setFrame_same hid) (raised_setFrame_same hio) rfl rfl

end Views

/-- Inside a call. -/
theorem effect_run {n : Nat} {s s' : Pool} {t : ThreadId} {pc : PoolPc}
    (hs : s.runThread n t pc = some s') :
    Effect s s' pc (s'.threads t).pc := by
  cases pc with
  | idle => cases hs
  | lookup id =>
      simp only [runThread] at hs
      split at hs <;> cases hs <;> exact effect_goto rfl
  | visitPin id f retry =>
      cases hs
      exact effect_frame rfl rfl rfl
  | visitCheck id f retry =>
      simp only [runThread] at hs
      split at hs <;> cases hs
      · exact .quiet (by rw [give_pc]; rfl) rfl rfl rfl rfl
      · exact effect_goto rfl
  | visitUnpin id f retry =>
      cases hs
      cases retry <;> exact effect_frame rfl rfl rfl
  | sweep call =>
      cases hs
      exact .quiet (by rw [goto_pc]; rfl) rfl rfl rfl rfl
  | tryLatch call f =>
      simp only [runThread] at hs
      split at hs <;> cases hs
      · exact effect_frame rfl rfl rfl
      · exact effect_goto rfl
  | checkPinned call f =>
      simp only [runThread] at hs
      split at hs <;> cases hs
      · exact effect_goto rfl
      · rename_i hzero
        exact .take f rfl (by rw [goto_pc]; rfl) (by omega) rfl rfl rfl rfl rfl
  | checkDirty call f =>
      simp only [runThread] at hs
      split at hs <;> cases hs
      · exact .release f rfl (by rw [goto_pc]; rfl) rfl rfl rfl rfl
      · exact effect_goto rfl
  | checkIOInProgress call f =>
      simp only [runThread] at hs
      split at hs <;> cases hs
      · exact .release f rfl (by rw [goto_pc]; rfl) rfl rfl rfl rfl
      · exact effect_goto rfl
  | skip call f =>
      cases hs
      exact effect_frame rfl rfl rfl
  | readId call f =>
      cases hs
      exact .readId call f rfl (by rw [goto_pc]; rfl) rfl rfl rfl rfl
  | setId call f old =>
      cases hs
      exact .setId call f old rfl (by rw [goto_pc]) ids_setFrame (raised_setFrame_same rfl) rfl rfl
  | pinVictim call f old =>
      cases hs
      by_cases hio : call.isIO = true
      · simp only [hio, if_true]
        have hrole :
            (PoolPc.setIOInProgress call f old).role = (PoolPc.pinVictim call f old).role := rfl
        exact effect_frame hrole rfl rfl
      · simp only [hio]
        exact effect_frame (by simp [PoolPc.role, hio]) rfl rfl
  | setIOInProgress call f old =>
      cases hs
      exact .raise call f old rfl (by rw [goto_pc]) (ids_setFrame_same rfl) raised_setFrame rfl rfl
  | unlatch call f old =>
      cases hs
      exact effect_frame rfl rfl rfl
  | put call f old =>
      simp only [runThread, putMap] at hs
      cases hmap : s.map call.id with
      | none =>
          simp only [hmap] at hs
          cases hs
          exact .publish call f old rfl (by rw [goto_pc]) hmap rfl rfl rfl rfl
      | some new =>
          simp only [hmap, Option.ite_none_right_eq_some] at hs
          obtain ⟨hio, hs⟩ := hs
          cases hs
          exact effect_goto (by simp [PoolPc.role, hio])
  | delete call f old =>
      simp only [runThread] at hs
      have hmap : (s.deleteMap old f).map = if s.map old = some f then update s.map old none
          else s.map := by
        unfold deleteMap
        split <;> rfl
      have hframes : (s.deleteMap old f).frames = s.frames := by unfold deleteMap; split <;> rfl
      have hreads : (s.deleteMap old f).reads = s.reads := by unfold deleteMap; split <;> rfl
      have hids : (s.deleteMap old f).ids = s.ids := by
        funext g
        rw [ids, hframes, ids]
      have hraised : (s.deleteMap old f).raised = s.raised := by
        funext g
        rw [raised, hframes, raised]
      split at hs <;> rename_i hio <;> cases hs
      · exact .remove call f old rfl (.inl ⟨hio, goto_pc⟩) hids hraised hmap hreads
      · exact .remove call f old rfl (.inr ⟨by simpa using hio, give_pc⟩) hids hraised hmap hreads
  | enqueue call f =>
      cases hs
      exact .enqueue call f rfl give_pc rfl rfl rfl rfl
  | undoLatch id f old new =>
      simp only [runThread] at hs
      split at hs <;> cases hs
      exact effect_frame rfl rfl rfl
  | undoUnpin id f old new =>
      cases hs
      exact effect_frame rfl rfl rfl
  | undoSetId id f old new =>
      cases hs
      exact .restore id f old new rfl goto_pc ids_setFrame (raised_setFrame_same rfl) rfl rfl
  | undoClearIOInProgress id f new =>
      cases hs
      exact .clear f (.inl ⟨id, new, rfl⟩) (by rw [goto_pc]; rfl) (ids_setFrame_same rfl)
        raised_setFrame rfl rfl
  | undoUnlatch id f new =>
      cases hs
      exact effect_frame rfl rfl rfl
  | signalLatch f =>
      simp only [runThread] at hs
      split at hs <;> cases hs
      exact effect_frame rfl rfl rfl
  | signalClear f =>
      simp only [runThread] at hs
      split at hs <;> cases hs
      exact .clear f (.inr rfl) (by rw [goto_pc]; rfl) (ids_setFrame_same rfl)
        raised_setFrame rfl rfl
  | signalUnlatch f =>
      cases hs
      exact effect_frame rfl rfl rfl

theorem effect_step {n : Nat} {s s' : Pool} {a : PoolAction} (hs : s.step n a = some s') :
    Effect s s' (s.threads a.thread).pc (s'.threads a.thread).pc := by
  cases a with
  | pin t id =>
      simp only [step, Option.ite_none_right_eq_some] at hs
      obtain ⟨⟨hidle, -⟩, hs⟩ := hs
      cases hs
      exact effect_goto (by rw [PoolAction.thread, hidle]; rfl)
  | reserve t tbl =>
      simp only [step, Option.ite_none_right_eq_some] at hs
      obtain ⟨⟨hidle, -⟩, hs⟩ := hs
      cases hs
      exact .quiet (by rw [PoolAction.thread, hidle, goto_pc]; rfl) rfl rfl rfl rfl
  | unpin t id f =>
      simp only [step, Option.ite_none_right_eq_some] at hs
      obtain ⟨⟨hidle, -⟩, hs⟩ := hs
      cases hs
      exact .quiet (by simp [PoolAction.thread, hidle]) (ids_setFrame_same rfl)
        (raised_setFrame_same rfl) rfl rfl
  | signal t f =>
      simp only [step, Option.ite_none_right_eq_some] at hs
      obtain ⟨⟨hidle, hmem⟩, hs⟩ := hs
      cases hs
      exact .signal f hidle goto_pc hmem rfl rfl rfl rfl
  | run t => exact effect_run hs

/-- The pins that a step of a call returns. -/
theorem held_run {n : Nat} {s s' : Pool} {t : ThreadId} {pc : PoolPc}
    (hs : s.runThread n t pc = some s') :
    (s'.threads t).held = (s.returnsPin pc).toList ++ (s.threads t).held ∨
      s.returnsPin pc = none ∧ ∃ call f old, pc = .delete call f old ∧ call.isIO = false ∧
        (s'.threads t).held = (call.id, f) :: (s.threads t).held := by
  cases pc with
  | idle => cases hs
  | visitCheck id f retry =>
      simp only [runThread] at hs
      split at hs <;> rename_i hid <;> cases hs
      · exact .inl (by simp [returnsPin, hid, give])
      · exact .inl (by simp [returnsPin, hid, goto])
  | put call f old =>
      simp only [runThread, putMap] at hs
      cases hmap : s.map call.id with
      | none =>
          simp only [hmap] at hs
          cases hs
          exact .inl (by simp [returnsPin, goto])
      | some new =>
          simp only [hmap, Option.ite_none_right_eq_some] at hs
          obtain ⟨-, hs⟩ := hs
          cases hs
          exact .inl (by simp [returnsPin, goto])
  | delete call f old =>
      have hthreads : (s.deleteMap old f).threads = s.threads := by unfold deleteMap; split <;> rfl
      simp only [runThread] at hs
      split at hs <;> cases hs
      · exact .inl (by simp [returnsPin, goto, hthreads])
      · rename_i hio
        exact .inr ⟨rfl, call, f, old, rfl, by simpa using hio, by simp [give, hthreads]⟩
  | enqueue call f =>
      cases hs
      exact .inl (by simp [returnsPin, give])
  | lookup id =>
      simp only [runThread] at hs
      split at hs <;> cases hs <;> exact .inl (by simp [returnsPin, goto])
  | tryLatch call f =>
      simp only [runThread] at hs
      split at hs <;> cases hs <;> exact .inl (by simp [returnsPin, goto, setFrame])
  | undoLatch id f old new =>
      simp only [runThread, Option.ite_none_right_eq_some] at hs
      obtain ⟨-, hs⟩ := hs
      cases hs
      exact .inl (by simp [returnsPin, goto, setFrame])
  | signalLatch f =>
      simp only [runThread, Option.ite_none_right_eq_some] at hs
      obtain ⟨-, hs⟩ := hs
      cases hs
      exact .inl (by simp [returnsPin, goto, setFrame])
  | signalClear f =>
      simp only [runThread, Option.ite_none_right_eq_some] at hs
      obtain ⟨-, hs⟩ := hs
      cases hs
      exact .inl (by simp [returnsPin, goto, setFrame])
  | visitPin | visitUnpin | sweep | checkPinned | checkDirty | checkIOInProgress | skip
  | readId | setId
  | pinVictim | setIOInProgress | unlatch | undoUnpin | undoSetId
  | undoClearIOInProgress | undoUnlatch
  | signalUnlatch =>
      cases hs
      exact .inl (by simp [returnsPin, goto, setFrame])

/-- The pages that calls are about. -/
theorem ok_run {n : Nat} {s s' : Pool} {t : ThreadId} {pc : PoolPc} (h : pc.Ok)
    (hs : s.runThread n t pc = some s') : (s'.threads t).pc.Ok := by
  cases pc with
  | idle => cases hs
  | visitCheck id f retry =>
      simp only [runThread] at hs
      split at hs <;> cases hs
      · rw [give_pc]
        trivial
      · rw [goto_pc]
        exact h
  | visitUnpin id f retry =>
      cases hs
      cases retry <;> rw [goto_pc] <;> exact h
  | pinVictim call f old =>
      cases hs
      rw [goto_pc]
      split
      · exact ⟨h, ‹_›⟩
      · exact h
  | put call f old =>
      simp only [runThread, putMap] at hs
      cases hmap : s.map call.id with
      | none =>
          simp only [hmap] at hs
          cases hs
          rw [goto_pc]
          exact h
      | some new =>
          simp only [hmap, Option.ite_none_right_eq_some] at hs
          obtain ⟨-, hs⟩ := hs
          cases hs
          rw [goto_pc]
          exact h
  | delete call f old =>
      simp only [runThread] at hs
      split at hs <;> cases hs
      · rw [goto_pc]
        exact ⟨h, ‹_›⟩
      · rw [give_pc]
        trivial
  | enqueue call f =>
      cases hs
      rw [give_pc]
      trivial
  | lookup id =>
      simp only [runThread] at hs
      split at hs <;> cases hs <;> rw [goto_pc] <;> exact h
  | tryLatch call f =>
      simp only [runThread] at hs
      split at hs <;> cases hs <;> rw [goto_pc] <;> exact h
  | undoLatch id f old new =>
      simp only [runThread, Option.ite_none_right_eq_some] at hs
      obtain ⟨-, hs⟩ := hs
      cases hs
      rw [goto_pc]
      exact h
  | signalLatch f =>
      simp only [runThread, Option.ite_none_right_eq_some] at hs
      obtain ⟨-, hs⟩ := hs
      cases hs
      rw [goto_pc]
      trivial
  | signalClear f =>
      simp only [runThread, Option.ite_none_right_eq_some] at hs
      obtain ⟨-, hs⟩ := hs
      cases hs
      rw [goto_pc]
      trivial
  | checkPinned | checkDirty | checkIOInProgress =>
      cases hs
      rw [goto_pc]
      split <;> exact h
  | setIOInProgress =>
      cases hs
      rw [goto_pc]
      exact h.1
  | visitPin | sweep | skip | readId | setId | unlatch | undoUnpin | undoSetId
  | undoClearIOInProgress
  | undoUnlatch =>
      cases hs
      rw [goto_pc]
      exact h
  | signalUnlatch =>
      cases hs
      rw [goto_pc]
      trivial

/-- Only `Reserve` moves the counters. -/
theorem nextPid_run {n : Nat} {s s' : Pool} {t : ThreadId} {pc : PoolPc}
    (hs : s.runThread n t pc = some s') :
    s'.nextPid = s.nextPid := by
  cases pc with
  | idle => cases hs
  | put call f old =>
      simp only [runThread, putMap] at hs
      cases hmap : s.map call.id with
      | none =>
          simp only [hmap] at hs
          cases hs
          rfl
      | some new =>
          simp only [hmap, Option.ite_none_right_eq_some] at hs
          obtain ⟨-, hs⟩ := hs
          cases hs
          rfl
  | delete call f old =>
      have hdelete : (s.deleteMap old f).nextPid = s.nextPid := by unfold deleteMap; split <;> rfl
      simp only [runThread] at hs
      split at hs <;> cases hs <;> exact hdelete
  | lookup | visitCheck | tryLatch =>
      simp only [runThread] at hs
      split at hs <;> cases hs <;> rfl
  | undoLatch | signalLatch | signalClear =>
      simp only [runThread, Option.ite_none_right_eq_some] at hs
      obtain ⟨-, hs⟩ := hs
      cases hs
      rfl
  | visitPin | visitUnpin | sweep | checkPinned | checkDirty | checkIOInProgress | skip
  | readId | setId
  | pinVictim | setIOInProgress | unlatch | enqueue | undoUnpin | undoSetId | undoClearIOInProgress
  | undoUnlatch | signalUnlatch =>
      cases hs
      rfl

/-- What `Pin` asserts of its page, and `Reserve` has from its counter. -/
theorem ok_step {n : Nat} {s s' : Pool} {a : PoolAction} (h : (s.threads a.thread).pc.Ok)
    (hnext : ∀ tbl, s.nextPid tbl ≠ 0) (hs : s.step n a = some s') :
    (s'.threads a.thread).pc.Ok ∧ ∀ tbl, s'.nextPid tbl ≠ 0 := by
  cases a with
  | pin t id =>
      simp only [step, Option.ite_none_right_eq_some] at hs
      obtain ⟨⟨-, hpid, -⟩, hs⟩ := hs
      cases hs
      exact ⟨by rw [PoolAction.thread, goto_pc]; exact hpid, hnext⟩
  | reserve t tbl =>
      simp only [step, Option.ite_none_right_eq_some] at hs
      obtain ⟨⟨-, hlt⟩, hs⟩ := hs
      cases hs
      refine ⟨by rw [PoolAction.thread, goto_pc]; exact hnext tbl, fun tbl' => ?_⟩
      show update s.nextPid tbl (u32 (s.nextPid tbl + 1)) tbl' ≠ 0
      by_cases heq : tbl' = tbl
      · subst heq
        have hmax : bufferPoolPageNum = 80000 := rfl
        rw [update_self, u32, Nat.mod_eq_of_lt (by omega)]
        omega
      · rw [update_of_ne heq]
        exact hnext tbl'
  | unpin t id f =>
      simp only [step, Option.ite_none_right_eq_some] at hs
      obtain ⟨⟨hidle, -⟩, hs⟩ := hs
      cases hs
      exact ⟨by simp [PoolAction.thread, PoolPc.Ok], hnext⟩
  | signal t f =>
      simp only [step, Option.ite_none_right_eq_some] at hs
      obtain ⟨-, hs⟩ := hs
      cases hs
      exact ⟨by rw [PoolAction.thread, goto_pc]; trivial, hnext⟩
  | run t =>
      refine ⟨ok_run h hs, fun tbl => ?_⟩
      rw [nextPid_run hs]
      exact hnext tbl

end Pool

namespace PoolUse

/-! ## One claim -/

/-- A thread's share in what at most one has. -/
def share (o : Option Nat) (f : Nat) : Nat := if o = some f then 1 else 0

theorem share_eq_zero {o : Option Nat} {f : Nat} : share o f = 0 ↔ o ≠ some f := by
  unfold share
  split <;> simp_all

theorem share_some {f : Nat} : share (some f) f = 1 := if_pos rfl

theorem share_none_le {f n c : Nat} : share none f + c ≤ n + c :=
  Nat.add_le_add_right (Nat.zero_le _) _

/-- One more of `g` in a list. -/
theorem count_cons_share (g f : Nat) (l : List Nat) :
    List.count f (g :: l) = List.count f l + share (some g) f := by
  rw [List.count_cons]
  by_cases hgf : g = f
  · rw [hgf, share_some, if_pos (beq_self_eq_true f)]
  · have hbeq : (g == f) = false := beq_false_of_ne hgf
    have hne : share (some g) f = 0 := share_eq_zero.mpr fun hc => hgf (Option.some.inj hc)
    rw [hbeq, hne]
    rfl

/-- One less of `g` in a list that has it. -/
theorem count_erase_share {g : Nat} {l : List Nat} (hmem : g ∈ l) (f : Nat) :
    List.count f (l.erase g) + share (some g) f = List.count f l := by
  rw [← count_cons_share]
  exact ((List.perm_cons_erase hmem).count_eq f).symm

theorem share_le_one (o : Option Nat) (f : Nat) : share o f ≤ 1 := by
  unfold share
  split <;> omega

/-- A frame has one claim, or one read into it is under way, and its flag tells of both. -/
structure OneClaim (u : PoolUse) : Prop where
  balanced : u.pool.Balanced
  ok : ∀ t, (u.pool.threads t).pc.Ok
  nextPid : ∀ tbl, u.pool.nextPid tbl ≠ 0
  tokens : ∀ f, ∃ k, HasTotal (fun t => share (u.pool.threads t).pc.role.takes f) k ∧
    k + u.pool.reads.count f ≤ 1
  flagged : ∀ f, ∃ k, HasTotal (fun t => share (u.pool.threads t).pc.role.raises f) k ∧
    k + u.pool.reads.count f = if u.pool.raised f then 1 else 0
  /-- Who has not waited for its read still has the frame pinned. -/
  awaited : ∀ f, (f ∈ u.pool.reads ∨ ∃ t, (u.pool.threads t).pc.role.completes = some f) →
    ∃ t id, (id, f) ∈ u.unwaited t
  waits : ∀ t p, (u.unwaited t).count p ≤ (u.pool.threads t).held.count p

namespace OneClaim

variable {u : PoolUse} {t v : ThreadId} {f : Nat} {id : PageIdentifier} {s' : Pool}

/-! ## Consequences -/

theorem claim_unique (h : u.OneClaim) (ht : (u.pool.threads t).pc.role.takes = some f)
    (hv : (u.pool.threads v).pc.role.takes = some f) : t = v := by
  by_contra hne
  obtain ⟨k, htotal, hk⟩ := h.tokens f
  have hle := htotal.add_le_total hne
  simp only [ht, hv, share_some] at hle
  omega

theorem not_read (h : u.OneClaim) (ht : (u.pool.threads t).pc.role.takes = some f) :
    f ∉ u.pool.reads := by
  intro hmem
  obtain ⟨k, htotal, hk⟩ := h.tokens f
  have hle := htotal.le_total t
  have hpos := List.count_pos_iff.mpr hmem
  simp only [ht, share_some] at hle
  omega

/-- Without a claim that has raised it, and without a read, the flag is clear. -/
theorem raised_of (h : u.OneClaim) (hraised : u.pool.raised f = true) :
    f ∈ u.pool.reads ∨ ∃ t, (u.pool.threads t).pc.role.raises = some f := by
  obtain ⟨k, htotal, hk⟩ := h.flagged f
  rw [hraised, if_pos rfl] at hk
  by_contra hnone
  obtain ⟨hread, hcall⟩ := not_or.mp hnone
  have hzero := htotal.total_zero fun t => share_eq_zero.mpr fun ht => hcall ⟨t, ht⟩
  have hcount := List.count_eq_zero.mpr hread
  omega

theorem raised_of_raises (h : u.OneClaim) (ht : (u.pool.threads t).pc.role.raises = some f) :
    u.pool.raised f = true := by
  obtain ⟨k, htotal, hk⟩ := h.flagged f
  have hle := htotal.le_total t
  simp only [ht, share_some] at hle
  split at hk
  · assumption
  · omega

theorem raised_of_read (h : u.OneClaim) (hmem : f ∈ u.pool.reads) : u.pool.raised f = true := by
  obtain ⟨k, htotal, hk⟩ := h.flagged f
  have hpos := List.count_pos_iff.mpr hmem
  split at hk
  · assumption
  · omega

/-- A pin that has not been waited for counts. -/
theorem pinned_of_unwaited (h : u.OneClaim) (hmem : (id, f) ∈ u.unwaited t) :
    0 < (u.pool.frames f).refCount := by
  have hcount := List.count_pos_iff.mpr hmem
  have hle := h.waits t (id, f)
  have hheld : (id, f) ∈ (u.pool.threads t).held := List.count_pos_iff.mp (by omega)
  exact Nat.lt_of_lt_of_le (Pool.pinCount_pos_of_held hheld) ((h.balanced.refs f).le_total t)

/-- A frame that a victim search finds unpinned is nobody else's. -/
theorem free_of_zero (h : u.OneClaim) (hzero : (u.pool.frames f).refCount = 0)
    (hlatched : (u.pool.threads t).pc.latched = some f) :
    f ∉ u.pool.reads ∧ ∀ v, v ≠ t → (u.pool.threads v).pc.role.takes ≠ some f := by
  have hawaited : ¬(f ∈ u.pool.reads ∨ ∃ v, (u.pool.threads v).pc.role.completes = some f) := by
    intro hc
    obtain ⟨v, id, hmem⟩ := h.awaited f hc
    have hpos := h.pinned_of_unwaited hmem
    omega
  refine ⟨fun hmem => hawaited (.inl hmem), fun v hv htakes => ?_⟩
  rcases PoolPc.pinned_of_takes htakes with hpin | hlatch | hcompletes
  · have hpos := Pool.refCount_pos h.balanced hpin
    omega
  · exact hv (h.balanced.latch_unique hlatch hlatched)
  · exact hawaited (.inr ⟨v, hcompletes⟩)

/-! ## A step of the pool -/

/-- The claims and reads of a frame do not become more than one. -/
theorem tokens_step (h : u.OneClaim) (hothers : ∀ v, v ≠ t → s'.threads v = u.pool.threads v)
    (heff : Pool.Effect u.pool s' (u.pool.threads t).pc (s'.threads t).pc) (f : Nat) :
    ∃ k, HasTotal (fun t => share (s'.threads t).pc.role.takes f) k ∧ k + s'.reads.count f ≤ 1 := by
  obtain ⟨k, htotal, hk⟩ := h.tokens f
  have hle := htotal.le_total t
  have hone := share_le_one (s'.threads t).pc.role.takes f
  have hshare : share (s'.threads t).pc.role.takes f + s'.reads.count f ≤
        share (u.pool.threads t).pc.role.takes f + u.pool.reads.count f ∨
      s'.reads.count f = 0 ∧ ∀ v, v ≠ t → share (u.pool.threads v).pc.role.takes f = 0 := by
    cases heff with
    | quiet hrole hids hraised hmap hreads => exact .inl (by rw [hrole, hreads])
    | take g hrole hrole' hzero hlatched hids hraised hmap hreads =>
        by_cases hfg : f = g
        · subst hfg
          obtain ⟨hread, hfree⟩ := h.free_of_zero hzero hlatched
          exact .inr ⟨by rw [hreads]; exact List.count_eq_zero.mpr hread,
            fun v hv => share_eq_zero.mpr (hfree v hv)⟩
        · have hnone : share (some g) f = 0 :=
            share_eq_zero.mpr fun hc => hfg (Option.some.inj hc).symm
          exact .inl (by rw [hrole', hreads, hnone]; omega)
    | release g hrole hrole' hids hraised hmap hreads =>
        exact .inl (by rw [hrole', hreads]; exact share_none_le)
    | readId call g hpc hpc' hids hraised hmap hreads =>
        exact .inl (by rw [hpc, hpc', hreads]; exact Nat.le_refl _)
    | setId call g old hpc hpc' hids hraised hmap hreads =>
        exact .inl (by rw [hpc, hpc', hreads]; exact Nat.le_refl _)
    | raise call g old hpc hpc' hids hraised hmap hreads =>
        exact .inl (by rw [hpc, hpc', hreads]; exact Nat.le_refl _)
    | publish call g old hpc hpc' hnone hids hraised hmap hreads =>
        exact .inl (by rw [hpc, hpc', hreads]; exact Nat.le_refl _)
    | remove call g old hpc hpc' hids hraised hmap hreads =>
        rcases hpc' with ⟨-, hpc'⟩ | ⟨-, hpc'⟩
        · exact .inl (by rw [hpc, hpc', hreads]; exact Nat.le_refl _)
        · exact .inl (by rw [hpc', hreads]; exact share_none_le)
    | enqueue call g hpc hpc' hids hraised hmap hreads =>
        refine .inl ?_
        rw [hpc, hpc', hreads, count_cons_share]
        show 0 + _ ≤ share (some g) f + _
        omega
    | restore id g old new hpc hpc' hids hraised hmap hreads =>
        exact .inl (by rw [hpc, hpc', hreads]; exact Nat.le_refl _)
    | clear g hpc hrole' hids hraised hmap hreads =>
        exact .inl (by rw [hrole', hreads]; exact share_none_le)
    | signal g hpc hpc' hmem hids hraised hmap hreads =>
        refine .inl ?_
        have herase := count_erase_share hmem f
        rw [hpc, hpc', hreads]
        show share (some g) f + _ ≤ 0 + _
        omega
  rcases hshare with hless | ⟨hcount, halone⟩
  · exact ⟨k + share (s'.threads t).pc.role.takes f - share (u.pool.threads t).pc.role.takes f,
      htotal.step t (fun v hv => by rw [hothers v hv]) (by omega), by omega⟩
  · have hk0 := htotal.eq_of_alone t halone
    exact ⟨share (s'.threads t).pc.role.takes f,
      htotal.step t (fun v hv => by rw [hothers v hv]) (by omega), by omega⟩

/-- A flag is set when its claim raises it, and cleared when the claim or the read ends. -/
theorem flagged_step (h : u.OneClaim) (hothers : ∀ v, v ≠ t → s'.threads v = u.pool.threads v)
    (heff : Pool.Effect u.pool s' (u.pool.threads t).pc (s'.threads t).pc) (f : Nat) :
    ∃ k, HasTotal (fun t => share (s'.threads t).pc.role.raises f) k ∧
      k + s'.reads.count f = if s'.raised f then 1 else 0 := by
  obtain ⟨k, htotal, hk⟩ := h.flagged f
  have hle := htotal.le_total t
  have hshare :
      share (s'.threads t).pc.role.raises f + s'.reads.count
      f + (if u.pool.raised f then 1 else 0) =
      share (u.pool.threads t).pc.role.raises f + u.pool.reads.count f + if s'.raised f
        then 1 else 0 := by
    cases heff with
    | quiet hrole hids hraised hmap hreads => rw [hrole, hraised, hreads]
    | take g hrole hrole' hzero hlatched hids hraised hmap hreads =>
        rw [hrole, hrole', hraised, hreads]
    | release g hrole hrole' hids hraised hmap hreads => rw [hrole, hrole', hraised, hreads]
    | readId call g hpc hpc' hids hraised hmap hreads =>
        rw [hpc, hpc', hraised, hreads]
        rfl
    | setId call g old hpc hpc' hids hraised hmap hreads =>
        rw [hpc, hpc', hraised, hreads]
        rfl
    | raise call g old hpc hpc' hids hraised hmap hreads =>
        have hio : call.isIO = true := by
          have hok := h.ok t
          rw [hpc] at hok
          exact hok.2
        have htakes : (u.pool.threads t).pc.role.takes = some g := by rw [hpc]; rfl
        rw [hpc, hpc', hraised, hreads]
        show share (if call.isIO then some g else none) f + _ + _ = share none f + _ + _
        rw [if_pos hio]
        by_cases hgf : f = g
        · subst hgf
          -- the claim is the only one, and it has not raised the flag before
          have hclear : u.pool.raised f = false := by
            rw [← Bool.not_eq_true]
            intro hc
            rcases h.raised_of hc with hread | ⟨v, hv⟩
            · exact h.not_read htakes hread
            · obtain rfl := h.claim_unique htakes (PoolPc.takes_of_raises hv)
              rw [hpc] at hv
              cases hv
          rw [hclear, update_self, share_some, if_pos rfl]
          show 1 + _ + 0 = 0 + _ + 1
          omega
        · rw [update_of_ne hgf, share_eq_zero.mpr fun hc => hgf (Option.some.inj hc).symm]
          rfl
    | publish call g old hpc hpc' hnone hids hraised hmap hreads =>
        rw [hpc, hpc', hraised, hreads]
        rfl
    | remove call g old hpc hpc' hids hraised hmap hreads =>
        rcases hpc' with ⟨hio, hpc'⟩ | ⟨hio, hpc'⟩
        · rw [hpc, hpc', hraised, hreads]
          simp [PoolPc.role, hio]
        · rw [hpc, hpc', hraised, hreads]
          simp [PoolPc.role, hio]
    | enqueue call g hpc hpc' hids hraised hmap hreads =>
        rw [hpc, hpc', hraised, hreads, count_cons_share]
        show 0 + _ + _ = share (some g) f + _ + _
        omega
    | restore id g old new hpc hpc' hids hraised hmap hreads =>
        rw [hpc, hpc', hraised, hreads]
        rfl
    | clear g hpc hrole' hids hraised hmap hreads =>
        have hraises : (u.pool.threads t).pc.role.raises = some g := by
          rcases hpc with ⟨id, new, hpc⟩ | hpc <;> rw [hpc] <;> rfl
        rw [hrole', hraises, hraised, hreads]
        show share none f + _ + _ = share (some g) f + _ + _
        by_cases hgf : f = g
        · subst hgf
          rw [h.raised_of_raises hraises, update_self, share_some, if_pos rfl]
          show 0 + _ + 1 = 1 + _ + 0
          omega
        · rw [update_of_ne hgf, share_eq_zero.mpr fun hc => hgf (Option.some.inj hc).symm]
          rfl
    | signal g hpc hpc' hmem hids hraised hmap hreads =>
        have herase := count_erase_share hmem f
        rw [hpc, hpc', hraised, hreads]
        show share (some g) f + _ + _ = 0 + _ + _
        omega
  refine ⟨k + share (s'.threads t).pc.role.raises f - share (u.pool.threads t).pc.role.raises f,
    htotal.step t (fun v hv => by rw [hothers v hv]) (by omega), by omega⟩

/-- A read that is under way after the step was before, or the step has started it. -/
theorem awaited_step (hothers : ∀ v, v ≠ t → s'.threads v = u.pool.threads v)
    (heff : Pool.Effect u.pool s' (u.pool.threads t).pc (s'.threads t).pc)
    (hf : f ∈ s'.reads ∨ ∃ v, (s'.threads v).pc.role.completes = some f) :
    (f ∈ u.pool.reads ∨ ∃ v, (u.pool.threads v).pc.role.completes = some f) ∨
      ∃ call, (u.pool.threads t).pc = .enqueue call f := by
  have hother : ∀ v, v ≠ t → (s'.threads v).pc.role.completes = some f →
      f ∈ u.pool.reads ∨ ∃ v, (u.pool.threads v).pc.role.completes = some f := by
    intro v hv hc
    rw [hothers v hv] at hc
    exact .inr ⟨v, hc⟩
  have hmine : (s'.threads t).pc.role.completes = none → (f ∈ s'.reads → f ∈ u.pool.reads) →
      f ∈ u.pool.reads ∨ ∃ v, (u.pool.threads v).pc.role.completes = some f := by
    intro hnone hreads
    rcases hf with hread | ⟨v, hv⟩
    · exact .inl (hreads hread)
    · by_cases hvt : v = t
      · subst hvt
        rw [hnone] at hv
        cases hv
      · exact hother v hvt hv
  cases heff with
  | quiet hrole hids hraised hmap hreads =>
      rcases hf with hread | ⟨v, hv⟩
      · exact .inl (.inl (hreads ▸ hread))
      · by_cases hvt : v = t
        · subst hvt
          rw [hrole] at hv
          exact .inl (.inr ⟨v, hv⟩)
        · exact .inl (hother v hvt hv)
  | take g hrole hrole' hzero hlatched hids hraised hmap hreads =>
      exact .inl (hmine (by rw [hrole']) fun hm => hreads ▸ hm)
  | release g hrole hrole' hids hraised hmap hreads =>
      exact .inl (hmine (by rw [hrole']) fun hm => hreads ▸ hm)
  | readId call g hpc hpc' hids hraised hmap hreads =>
      exact .inl (hmine (by rw [hpc']; rfl) fun hm => hreads ▸ hm)
  | setId call g old hpc hpc' hids hraised hmap hreads =>
      exact .inl (hmine (by rw [hpc']; rfl) fun hm => hreads ▸ hm)
  | raise call g old hpc hpc' hids hraised hmap hreads =>
      exact .inl (hmine (by rw [hpc']; rfl) fun hm => hreads ▸ hm)
  | publish call g old hpc hpc' hnone hids hraised hmap hreads =>
      exact .inl (hmine (by rw [hpc']; rfl) fun hm => hreads ▸ hm)
  | remove call g old hpc hpc' hids hraised hmap hreads =>
      rcases hpc' with ⟨-, hpc'⟩ | ⟨-, hpc'⟩ <;>
        exact .inl (hmine (by rw [hpc']; rfl) fun hm => hreads ▸ hm)
  | enqueue call g hpc hpc' hids hraised hmap hreads =>
      by_cases hfg : f = g
      · exact .inr ⟨call, by rw [hpc, hfg]⟩
      · refine .inl (hmine (by rw [hpc']; rfl) fun hm => ?_)
        rw [hreads] at hm
        exact (List.mem_cons.mp hm).resolve_left hfg
  | restore id g old new hpc hpc' hids hraised hmap hreads =>
      exact .inl (hmine (by rw [hpc']; rfl) fun hm => hreads ▸ hm)
  | clear g hpc hrole' hids hraised hmap hreads =>
      exact .inl (hmine (by rw [hrole']) fun hm => hreads ▸ hm)
  | signal g hpc hpc' hmem hids hraised hmap hreads =>
      rcases hf with hread | ⟨v, hv⟩
      · rw [hreads] at hread
        exact .inl (.inl (List.mem_of_mem_erase hread))
      · by_cases hvt : v = t
        · subst hvt
          rw [hpc'] at hv
          cases hv
          exact .inl (.inl hmem)
        · exact .inl (hother v hvt hv)

/-- A step of the pool, when the callers' pins go with it. -/
theorem of_call {n : Nat} {a : PoolAction} (h : u.OneClaim) (hc : u.pool.NoPinOverflow a)
    (hs : u.pool.step n a = some s') {unwaited : ThreadId → List (PageIdentifier × Nat)}
    (hgrows : ∀ v p, p ∈ u.unwaited v → p ∈ unwaited v)
    (hnew : ∀ call f, (u.pool.threads a.thread).pc = .enqueue call f → a = .run a.thread →
      (call.id, f) ∈ unwaited a.thread)
    (hwaits : ∀ v p, (unwaited v).count p ≤ (s'.threads v).held.count p) :
    OneClaim ⟨s', unwaited⟩ := by
  have hstep := Pool.threadStep_step h.balanced hc hs
  have heff := Pool.effect_step hs
  obtain ⟨hok, hnext⟩ := Pool.ok_step (h.ok a.thread) h.nextPid hs
  exact {
    balanced := h.balanced.of_threadStep hstep
    ok := fun v => by
      by_cases hv : v = a.thread
      · exact hv ▸ hok
      · show (s'.threads v).pc.Ok
        rw [hstep.others v hv]
        exact h.ok v
    nextPid := hnext
    tokens := h.tokens_step hstep.others heff
    flagged := h.flagged_step hstep.others heff
    awaited := fun f hf => by
      rcases awaited_step hstep.others heff hf with hold | ⟨call, hpc⟩
      · obtain ⟨v, id, hmem⟩ := h.awaited f hold
        exact ⟨v, id, hgrows v _ hmem⟩
      · refine ⟨a.thread, call.id, hnew call f hpc ?_⟩
        cases a with
        | run t => rfl
        | pin | reserve | unpin | signal =>
            simp only [Pool.step, Option.ite_none_right_eq_some] at hs
            rw [PoolAction.thread, hs.1.1] at hpc
            cases hpc
    waits := hwaits }

theorem step {n : Nat} {a : PoolUseAction} {u' : PoolUse} (h : u.OneClaim) (hc : u.NoOverflow a)
    (hs : u.step n a = some u') : u'.OneClaim := by
  have hstays : ∀ {a : PoolAction} {s' : Pool}, u.pool.NoPinOverflow a → u.pool.step n a = some s' →
      (s'.threads a.thread).held = (u.pool.threads a.thread).held → (∀ t, a ≠ .run t) →
        OneClaim ⟨s', u.unwaited⟩ := by
    intro a s' hc hs hheld hrun
    have hstep := Pool.threadStep_step h.balanced hc hs
    refine h.of_call hc hs (fun _ _ hp => hp) (fun _ _ _ ha => absurd ha (hrun _)) fun v p => ?_
    by_cases hv : v = a.thread
    · rw [hv, hheld]
      exact h.waits _ p
    · rw [hstep.others v hv]
      exact h.waits v p
  cases a with
  | wait t id f =>
      simp only [PoolUse.step, Option.ite_none_right_eq_some] at hs
      obtain ⟨⟨-, hmem, hclear⟩, hs⟩ := hs
      cases hs
      exact {
        balanced := h.balanced
        ok := h.ok
        nextPid := h.nextPid
        tokens := h.tokens
        flagged := h.flagged
        awaited := fun g hg => by
          obtain ⟨v, id', hv⟩ := h.awaited g hg
          have hraised : u.pool.raised g = true := by
            rcases hg with hread | ⟨w, hw⟩
            · exact h.raised_of_read hread
            · exact h.raised_of_raises (PoolPc.raises_of_completes hw)
          have hgf : g ≠ f := by
            rintro rfl
            rw [Pool.raised, hclear] at hraised
            cases hraised
          refine ⟨v, id', ?_⟩
          show _ ∈ update u.unwaited t _ v
          by_cases hvt : v = t
          · subst hvt
            rw [update_self]
            exact (List.mem_erase_of_ne fun heq => hgf (congrArg Prod.snd heq)).mpr hv
          · rw [update_of_ne hvt]
            exact hv
        waits := fun v p => by
          show List.count p (update u.unwaited t _ v) ≤ List.count p (u.pool.threads v).held
          by_cases hvt : v = t
          · subst hvt
            rw [update_self]
            exact Nat.le_trans (List.erase_sublist.count_le p) (h.waits v p)
          · rw [update_of_ne hvt]
            exact h.waits v p }
  | call a =>
      change u.pool.NoPinOverflow a at hc
      cases a with
      | run t =>
          simp only [PoolUse.step, Option.map_eq_some_iff] at hs
          obtain ⟨s', hs, rfl⟩ := hs
          have hstep := Pool.threadStep_step h.balanced hc hs
          refine h.of_call hc hs (fun v p hp => ?_) (fun call f hpc _ => ?_) fun v p => ?_
          · by_cases hvt : v = t
            · subst hvt
              rw [update_self]
              exact List.mem_append_right _ hp
            · rw [update_of_ne hvt]
              exact hp
          · change (u.pool.threads t).pc = _ at hpc
            show _ ∈ update u.unwaited t _ t
            rw [update_self, hpc]
            exact List.mem_cons_self
          · by_cases hvt : v = t
            · subst hvt
              have hold := h.waits v p
              rw [update_self, List.count_append]
              rcases Pool.held_run (n := n) hs with hheld | ⟨hnone, call, g, old, -, -, hheld⟩
              · rw [hheld, List.count_append]
                omega
              · rw [hnone, hheld, List.count_cons]
                simp only [Option.toList_none, List.count_nil]
                omega
            · rw [update_of_ne hvt, hstep.others v hvt]
              exact h.waits v p
      | unpin t id f =>
          simp only [PoolUse.step, Option.ite_none_right_eq_some, Option.map_eq_some_iff] at hs
          obtain ⟨hlt, s', hs, rfl⟩ := hs
          have hstep := Pool.threadStep_step h.balanced hc hs
          refine h.of_call hc hs (fun _ _ hp => hp) (fun _ _ _ ha => by cases ha) fun v p => ?_
          by_cases hvt : v = t
          · subst hvt
            have hold := h.waits v p
            have hheld : (s'.threads v).held = (u.pool.threads v).held.erase (id, f) := by
              simp only [Pool.step, Option.ite_none_right_eq_some] at hs
              obtain ⟨-, hs⟩ := hs
              cases hs
              simp
            rw [hheld]
            by_cases hp : p = (id, f)
            · subst hp
              rw [List.count_erase_self]
              omega
            · rw [List.count_erase_of_ne hp]
              exact hold
          · rw [hstep.others v hvt]
            exact h.waits v p
      | pin t id =>
          simp only [PoolUse.step, Option.map_eq_some_iff] at hs
          obtain ⟨s', hs, rfl⟩ := hs
          refine hstays hc hs ?_ fun _ hrun => by cases hrun
          simp only [Pool.step, Option.ite_none_right_eq_some] at hs
          obtain ⟨-, hs⟩ := hs
          cases hs
          simp [PoolAction.thread, Pool.goto]
      | reserve t tbl =>
          simp only [PoolUse.step, Option.map_eq_some_iff] at hs
          obtain ⟨s', hs, rfl⟩ := hs
          refine hstays hc hs ?_ fun _ hrun => by cases hrun
          simp only [Pool.step, Option.ite_none_right_eq_some] at hs
          obtain ⟨-, hs⟩ := hs
          cases hs
          simp [PoolAction.thread, Pool.goto]
      | signal t f =>
          simp only [PoolUse.step, Option.map_eq_some_iff] at hs
          obtain ⟨s', hs, rfl⟩ := hs
          refine hstays hc hs ?_ fun _ hrun => by cases hrun
          simp only [Pool.step, Option.ite_none_right_eq_some] at hs
          obtain ⟨-, hs⟩ := hs
          cases hs
          simp [PoolAction.thread, Pool.goto]

theorem init : PoolUse.init.OneClaim where
  balanced := Pool.balanced_init
  ok _ := trivial
  nextPid _ := by
    show (1 : Nat) ≠ 0
    omega
  tokens f := ⟨0, HasTotal.zero, by show 0 + 0 ≤ 1; omega⟩
  flagged f := ⟨0, HasTotal.zero, rfl⟩
  awaited f hf := by
    rcases hf with hread | ⟨t, ht⟩
    · cases hread
    · cases ht
  waits _ _ := Nat.le_refl _

end OneClaim

end PoolUse

end Db7
