import Db7.Storage.PinnedFrames
import Mathlib.Data.Nat.Find

/-!
# Pools of another size

The constructor makes `page_num` frames; `GetVictim` sweeps over `BUFFER_POOL_PAGE_NUM` of them,
whatever the pool has. The hand is a counter that wraps at 2^32.

* **frames** (`below_run`): the frames that a step handles were handled before, or the map or the
  hand leads to them;
* **the sweep** (`sweep_ends`): a thread that runs alone reaches each frame under the hand, so it
  ends at an evictable one;
* **result** (`sizeCorrect_iff`): frames lie in the pool, and a victim is found, exactly in the
  default size.
-/

namespace Db7

open Lib Function

deriving instance DecidableEq for PoolAction

/-- `IsEvictable`. -/
def Frame.IsEvictable (x : Frame) : Prop :=
  x.refCount = 0 ∧ x.dirty = false ∧ x.ioInProgress = false

instance (x : Frame) : Decidable x.IsEvictable :=
  inferInstanceAs (Decidable (x.refCount = 0 ∧ x.dirty = false ∧ x.ioInProgress = false))

namespace PoolPc

/-- The frame indices that a call under way has at hand. -/
def frames : PoolPc → List Nat
  | idle | lookup _ | sweep _ => []
  | visitPin _ f _ | visitCheck _ f _ | visitUnpin _ f _ | tryLatch _ f | checkPinned _ f
  | checkDirty _ f
  | checkIOInProgress _ f | skip _ f | readId _ f | setId _ f _ | pinVictim _ f _
  | setIOInProgress _ f _
  | unlatch _ f _ | put _ f _ | delete _ f _ | enqueue _ f | signalLatch f | signalClear f
  | signalUnlatch f => [f]
  | undoLatch _ f _ new | undoUnpin _ f _ new | undoSetId _ f _ new | undoClearIOInProgress _ f new
  | undoUnlatch _ f new => [f, new]

end PoolPc

/-- A pool of this size. The constructor counts the frames in 32 bits: with 2^32 of them it does not
return. -/
def sizedPool (pageNum : Nat) : TSys Pool PoolAction :=
  ⟨fun s => pageNum < 2 ^ 32 ∧ s = Pool.init, Pool.step bufferPoolPageNum⟩

namespace Pool

/-- The frame indices in the calls, in the map and at the callers are indices of the pool. -/
structure Below (pageNum : Nat) (s : Pool) : Prop where
  calls : ∀ t, ∀ f ∈ (s.threads t).pc.frames, f < pageNum
  map : ∀ id f, s.map id = some f → f < pageNum
  held : ∀ t id f, (id, f) ∈ (s.threads t).held → f < pageNum
  reads : ∀ f ∈ s.reads, f < pageNum

/-- Steps of one thread. -/
def Alone (t : ThreadId) (_ : Pool) (a : PoolAction) : Prop := a = .run t

instance (t : ThreadId) (s : Pool) (a : PoolAction) : Decidable (Alone t s a) :=
  inferInstanceAs (Decidable (a = .run t))

/-- No other thread has a frame latched. -/
def Undisturbed (s : Pool) (t : ThreadId) : Prop := ∀ u, u ≠ t → (s.threads u).pc.latched = none

/-- The pool has a frame that `GetVictim` may take. -/
def HasVictim (pageNum : Nat) (s : Pool) : Prop := ∃ f < pageNum, (s.frames f).IsEvictable

/-- `GetVictim` of a thread that runs alone ends with such a frame. -/
def FindsVictim (pageNum : Nat) (s : Pool) (t : ThreadId) (call : VictimCall) : Prop :=
  ∃ s' f old, (sizedPool pageNum).Steps (Alone t) s s' ∧
    (s'.threads t).pc = .put call f old ∧ f < pageNum ∧
    (s.frames f).IsEvictable

/-- In every run a pool of this size keeps to its frames, and finds a victim wherever it has one. -/
structure SizeCorrect (pageNum : Nat) : Prop where
  below : ∀ s, (sizedPool pageNum).Reachable s → s.Below pageNum
  victim : ∀ s t call, (sizedPool pageNum).Reachable s → (s.threads t).pc = .sweep call →
    s.Undisturbed t →
    s.HasVictim pageNum → s.FindsVictim pageNum t call

/-! ## Frames in the pool -/

section Below

variable {n : Nat} {s s' : Pool} {t : ThreadId}

/-- A step of a thread, which leaves the map as it is. -/
theorem Below.thread (h : s.Below n) {x : PoolThread} (hthreads : s'.threads = update s.threads t x)
    (hmap : s'.map = s.map) (hreads : s'.reads = s.reads) (hpc : ∀ f ∈ x.pc.frames, f < n)
    (hheld : ∀ id f, (id, f) ∈ x.held → f < n) : s'.Below n where
  calls u f hf := by
    by_cases hut : u = t
    · rw [hthreads, hut, update_self] at hf
      exact hpc f hf
    · rw [hthreads, update_of_ne hut] at hf
      exact h.calls u f hf
  map id f hf := h.map id f (by rw [← hmap]; exact hf)
  held u id f hf := by
    by_cases hut : u = t
    · rw [hthreads, hut, update_self] at hf
      exact hheld id f hf
    · rw [hthreads, update_of_ne hut] at hf
      exact h.held u id f hf
  reads f hf := h.reads f (by rw [← hreads]; exact hf)

/-- A step inside a call. -/
theorem Below.move (h : s.Below n) {pc : PoolPc}
    (hthreads : s'.threads = update s.threads t ⟨pc, (s.threads t).held⟩)
    (hmap : s'.map = s.map) (hreads : s'.reads = s.reads) (hpc : ∀ f ∈ pc.frames, f < n) :
    s'.Below n :=
  h.thread hthreads hmap hreads hpc (h.held t)

/-- A call returns a frame. -/
theorem Below.give (h : s.Below n) (id : PageIdentifier) {f : Nat} (hf : f < n) :
    (s.give t id f).Below n := by
  refine h.thread rfl rfl rfl (fun g hg => absurd hg List.not_mem_nil) ?_
  intro id' g hg
  rcases List.mem_cons.mp hg with heq | hg
  · rw [(Prod.mk.inj heq).2]
    exact hf
  · exact h.held t id' g hg

theorem Below.deleteMap (h : s.Below n) (id : PageIdentifier) (f : Nat) :
    (s.deleteMap id f).Below n := by
  unfold Pool.deleteMap
  split
  · refine ⟨h.calls, ?_, h.held, h.reads⟩
    intro id' g hg
    by_cases hid : id' = id
    · simp only [hid, update_self] at hg
      cases hg
    · simp only [update_of_ne hid] at hg
      exact h.map id' g hg
  · exact h

theorem Below.putMap (h : s.Below n) (id : PageIdentifier) {f : Nat} (hf : f < n) :
    (s.putMap id f).1.Below n ∧
    ∀ new, (s.putMap id f).2 = some new → new < n := by
  unfold Pool.putMap
  cases hmap : s.map id with
  | none =>
      refine ⟨⟨h.calls, ?_, h.held, h.reads⟩, fun new hnew => by cases hnew⟩
      intro id' g hg
      by_cases hid : id' = id
      · simp only [hid, update_self, Option.some.injEq] at hg
        rw [← hg]
        exact hf
      · simp only [update_of_ne hid] at hg
        exact h.map id' g hg
  | some new =>
      refine ⟨h, ?_⟩
      intro g hg
      obtain rfl := Option.some.inj hg
      exact h.map id _ hmap

/-- The frames of a step were at hand before, or the map or the hand leads to them. -/
theorem below_run (hn : 0 < n) (h : s.Below n) {pc : PoolPc} (hpc : (s.threads t).pc = pc)
    (hs : s.runThread n t pc = some s') :
    s'.Below n := by
  have hhand : ∀ f ∈ pc.frames, f < n := by
    rw [← hpc]
    exact h.calls t
  cases pc with
  | idle => cases hs
  | lookup id =>
      simp only [runThread] at hs
      split at hs
      case h_1 f hmap =>
        cases hs
        exact h.move rfl rfl rfl fun g hg => by
          obtain rfl := List.mem_singleton.mp hg
          exact h.map id _ hmap
      case h_2 =>
        cases hs
        exact h.move rfl rfl rfl fun g hg => absurd hg List.not_mem_nil
  | visitCheck id f retry =>
      simp only [runThread] at hs
      split at hs
      · cases hs
        exact h.give id (hhand f (List.mem_singleton_self f))
      · cases hs
        exact h.move rfl rfl rfl hhand
  | visitUnpin id f retry =>
      cases hs
      refine h.move rfl rfl rfl fun g hg => ?_
      cases retry <;> exact absurd hg List.not_mem_nil
  | sweep call =>
      cases hs
      refine h.move rfl rfl rfl fun g hg => ?_
      obtain rfl := List.mem_singleton.mp hg
      exact Nat.mod_lt _ hn
  | tryLatch call f =>
      simp only [runThread] at hs
      split at hs
      · cases hs
        exact h.move rfl rfl rfl hhand
      · cases hs
        exact h.move rfl rfl rfl fun g hg => absurd hg List.not_mem_nil
  | skip call f | signalUnlatch f =>
      cases hs
      exact h.move rfl rfl rfl fun g hg => absurd hg List.not_mem_nil
  | checkPinned call f | checkDirty call f | checkIOInProgress call f =>
      cases hs
      refine h.move rfl rfl rfl fun g hg => hhand g ?_
      split at hg <;> exact hg
  | pinVictim call f old =>
      cases hs
      refine h.move rfl rfl rfl fun g hg => hhand g ?_
      split at hg <;> exact hg
  | visitPin id f retry | readId call f | setId call f old | setIOInProgress call f old
  | unlatch call f old
  | undoUnpin id f old new | undoSetId id f old new | undoClearIOInProgress id f new =>
      cases hs
      exact h.move rfl rfl rfl hhand
  | put call f old =>
      have hput := h.putMap call.id (hhand f (List.mem_singleton_self f))
      have hthreads : (s.putMap call.id f).1.threads = s.threads := by
        unfold putMap
        split <;> rfl
      simp only [runThread] at hs
      split at hs
      case h_1 s₁ heq =>
        cases hs
        rw [heq] at hput
        exact hput.1.move rfl rfl rfl hhand
      case h_2 s₁ new heq =>
        rw [heq] at hput
        split at hs
        · cases hs
          refine hput.1.move rfl rfl rfl fun g hg => ?_
          rcases List.mem_cons.mp hg with rfl | hg
          · exact hhand g (List.mem_singleton_self g)
          · obtain rfl := List.mem_singleton.mp hg
            exact hput.2 _ rfl
        · cases hs
  | delete call f old =>
      have hdelete := h.deleteMap old f
      simp only [runThread] at hs
      split at hs
      · cases hs
        exact hdelete.move rfl rfl rfl hhand
      · cases hs
        exact hdelete.give call.id (hhand f (List.mem_singleton_self f))
  | enqueue call f =>
      have hf := hhand f (List.mem_singleton_self f)
      cases hs
      refine Below.give (s := { s with reads := f :: s.reads }) ⟨h.calls, h.map, h.held,
        fun g hg => ?_⟩ call.id hf
      rcases List.mem_cons.mp hg with rfl | hg
      · exact hf
      · exact h.reads g hg
  | undoLatch id f old new | signalLatch f | signalClear f =>
      simp only [runThread] at hs
      split at hs
      · cases hs
        exact h.move rfl rfl rfl hhand
      · cases hs
  | undoUnlatch id f new =>
      cases hs
      refine h.move rfl rfl rfl fun g hg => hhand g (List.mem_cons_of_mem _ hg)

theorem below_step (hn : 0 < n) (h : s.Below n) {a : PoolAction} (hs : s.step n a = some s') :
    s'.Below n := by
  cases a with
  | pin t id =>
      simp only [step, Option.ite_none_right_eq_some, Option.some.injEq] at hs
      obtain ⟨-, rfl⟩ := hs
      exact h.move rfl rfl rfl fun g hg => absurd hg List.not_mem_nil
  | reserve t tbl =>
      simp only [step, Option.ite_none_right_eq_some, Option.some.injEq] at hs
      obtain ⟨-, rfl⟩ := hs
      exact h.move rfl rfl rfl fun g hg => absurd hg List.not_mem_nil
  | unpin t id f =>
      simp only [step, Option.ite_none_right_eq_some, Option.some.injEq] at hs
      obtain ⟨-, rfl⟩ := hs
      refine h.thread rfl rfl rfl (fun g hg => absurd hg List.not_mem_nil) ?_
      intro id' g hg
      exact h.held t id' g (List.mem_of_mem_erase hg)
  | signal t f =>
      simp only [step, Option.ite_none_right_eq_some, Option.some.injEq] at hs
      obtain ⟨⟨-, hread⟩, rfl⟩ := hs
      have hrest : Below n { s with reads := s.reads.erase f } :=
        ⟨h.calls, h.map, h.held, fun g hg => h.reads g (List.mem_of_mem_erase hg)⟩
      refine hrest.move rfl rfl rfl fun g hg => ?_
      obtain rfl := List.mem_singleton.mp hg
      exact h.reads _ hread
  | run t => exact below_run hn h rfl hs

theorem below_init (n : Nat) : init.Below n where
  calls _ _ hf := absurd hf List.not_mem_nil
  map _ _ hf := by cases hf
  held _ _ _ hf := absurd hf List.not_mem_nil
  reads _ hf := absurd hf List.not_mem_nil

theorem below_reachable (hn : 0 < n) (hs : (poolSystem n).Reachable s) : s.Below n :=
  hs.invariant (fun _ h => by rw [show _ = init from h]; exact below_init n) fun _ _ _ h _ hst =>
    below_step hn h hst

end Below

/-! ## Latches -/

section Latches

variable {n : Nat} {s s' : Pool} {t : ThreadId}

/-- A frame is latched by the thread whose call holds its latch. -/
def LatchesOwned (s : Pool) : Prop :=
  ∀ f t, (s.frames f).latch = some t ↔ (s.threads t).pc.latched = some f

/-- The latches after a step from `pc` to `pc'`: the call latches a free frame, or gives its latch
back. -/
structure LatchStep (s s' : Pool) (t : ThreadId) (pc pc' : PoolPc) : Prop where
  latch : ∀ f, (s'.frames f).latch =
    if pc'.latched = some f then some t else if pc.latched = some f then none
      else (s.frames f).latch
  free : ∀ f, pc'.latched = some f → pc.latched = some f ∨ (s.frames f).latch = none

theorem LatchStep.owned {x : PoolThread} (hs : LatchStep s s' t (s.threads t).pc x.pc)
    (hthreads : s'.threads = update s.threads t x) (h : s.LatchesOwned) : s'.LatchesOwned := by
  intro f u
  rw [hs.latch f, hthreads]
  by_cases hut : u = t
  · subst hut
    rw [update_self]
    by_cases hnew : x.pc.latched = some f
    · rw [if_pos hnew]
      exact iff_of_true rfl hnew
    · rw [if_neg hnew]
      by_cases hold : (s.threads u).pc.latched = some f
      · rw [if_pos hold]
        exact iff_of_false (fun hnone => by cases hnone) hnew
      · rw [if_neg hold]
        exact iff_of_false (fun hlatch => hold ((h f u).mp hlatch)) hnew
  · rw [update_of_ne hut, ← h f u]
    -- the latch of another thread is not this one's to take or to give
    have hmine : (s.threads t).pc.latched = some f → (s.frames f).latch ≠ some u := by
      intro hold hother
      rw [(h f t).mpr hold] at hother
      exact hut (Option.some.inj hother).symm
    by_cases hnew : x.pc.latched = some f
    · rw [if_pos hnew]
      refine iff_of_false (fun htu => hut (Option.some.inj htu).symm) ?_
      rcases hs.free f hnew with hold | hfree
      · exact hmine hold
      · rw [hfree]
        exact fun hnone => by cases hnone
    · rw [if_neg hnew]
      by_cases hold : (s.threads t).pc.latched = some f
      · rw [if_pos hold]
        exact iff_of_false (fun hnone => by cases hnone) (hmine hold)
      · rw [if_neg hold]

variable {pc pc' : PoolPc} {f : Nat} {x : Frame}

/-- No latch changes. -/
theorem LatchStep.same (hmine : ∀ g, pc.latched = some g → (s.frames g).latch = some t)
    (hframes : ∀ g, (s'.frames g).latch = (s.frames g).latch) (hpc : pc'.latched = pc.latched) :
    LatchStep s s' t pc pc' where
  latch g := by
    rw [hframes g, hpc]
    by_cases hold : pc.latched = some g
    · rw [if_pos hold, hmine g hold]
    · rw [if_neg hold, if_neg hold]
  free g hg := .inl (hpc ▸ hg)

theorem LatchStep.sameFrame (hmine : ∀ g, pc.latched = some g → (s.frames g).latch = some t)
    (hframes : s'.frames = update s.frames f x) (hx : x.latch = (s.frames f).latch)
    (hpc : pc'.latched = pc.latched) :
    LatchStep s s' t pc pc' := by
  refine .same hmine (fun g => ?_) hpc
  rw [hframes]
  by_cases hg : g = f
  · rw [hg, update_self, hx]
  · rw [update_of_ne hg]

theorem LatchStep.take (hframes : s'.frames = update s.frames f x) (hx : x.latch = some t)
    (hfree : (s.frames f).latch = none)
    (hpc : pc.latched = none) (hpc' : pc'.latched = some f) : LatchStep s s' t pc pc' where
  latch g := by
    rw [hframes, hpc, hpc']
    by_cases hg : g = f
    · rw [hg, update_self, hx, if_pos rfl]
    · rw [update_of_ne hg, if_neg fun heq => hg (Option.some.inj heq).symm,
        if_neg fun heq => by cases heq]
  free g hg := by
    obtain rfl := Option.some.inj (hpc'.symm.trans hg)
    exact .inr hfree

theorem LatchStep.drop (hframes : s'.frames = update s.frames f x) (hx : x.latch = none)
    (hpc : pc.latched = some f) (hpc' : pc'.latched = none) : LatchStep s s' t pc pc' where
  latch g := by
    rw [hframes, hpc, hpc', if_neg fun heq => by cases heq]
    by_cases hg : g = f
    · rw [hg, update_self, hx, if_pos rfl]
    · rw [update_of_ne hg, if_neg fun heq => hg (Option.some.inj heq).symm]
  free g hg := by
    rw [hpc'] at hg
    cases hg

theorem latchStep_run (hmine : ∀ g, pc.latched = some g → (s.frames g).latch = some t)
    (hs : s.runThread n t pc = some s') :
    ∃ x : PoolThread, s'.threads = update s.threads t x ∧ LatchStep s s' t pc x.pc := by
  cases pc with
  | idle => cases hs
  | lookup id =>
      simp only [runThread] at hs
      split at hs <;> cases hs
      · exact ⟨_, rfl, .same hmine (fun _ => rfl) rfl⟩
      · exact ⟨_, rfl, .same hmine (fun _ => rfl) rfl⟩
  | visitPin id f retry =>
      cases hs
      exact ⟨_, rfl, .sameFrame hmine rfl rfl rfl⟩
  | visitCheck id f retry =>
      simp only [runThread] at hs
      split at hs <;> cases hs
      · exact ⟨_, rfl, .same hmine (fun _ => rfl) rfl⟩
      · exact ⟨_, rfl, .same hmine (fun _ => rfl) rfl⟩
  | visitUnpin id f retry =>
      cases hs
      refine ⟨_, rfl, .sameFrame hmine rfl rfl ?_⟩
      cases retry <;> rfl
  | sweep call =>
      cases hs
      exact ⟨_, rfl, .same hmine (fun _ => rfl) rfl⟩
  | tryLatch call f =>
      simp only [runThread] at hs
      split at hs <;> cases hs
      · exact ⟨_, rfl, .take rfl rfl ‹_› rfl rfl⟩
      · exact ⟨_, rfl, .same hmine (fun _ => rfl) rfl⟩
  | checkPinned call f | checkDirty call f | checkIOInProgress call f =>
      cases hs
      refine ⟨_, rfl, .same hmine (fun _ => rfl) ?_⟩
      show PoolPc.latched (ite _ _ _) = _
      split <;> rfl
  | skip call f =>
      cases hs
      exact ⟨_, rfl, .drop rfl rfl rfl rfl⟩
  | readId call f =>
      cases hs
      exact ⟨_, rfl, .same hmine (fun _ => rfl) rfl⟩
  | setId call f old =>
      cases hs
      exact ⟨_, rfl, .sameFrame hmine rfl rfl rfl⟩
  | pinVictim call f old =>
      cases hs
      refine ⟨_, rfl, .sameFrame hmine rfl rfl ?_⟩
      show PoolPc.latched (ite _ _ _) = _
      split <;> rfl
  | setIOInProgress call f old =>
      cases hs
      exact ⟨_, rfl, .sameFrame hmine rfl rfl rfl⟩
  | unlatch call f old =>
      cases hs
      exact ⟨_, rfl, .drop rfl rfl rfl rfl⟩
  | put call f old =>
      simp only [runThread, putMap] at hs
      cases hmap : s.map call.id with
      | none =>
          simp only [hmap, Option.some.injEq] at hs
          cases hs
          exact ⟨_, rfl, .same hmine (fun _ => rfl) rfl⟩
      | some new =>
          simp only [hmap, Option.ite_none_right_eq_some, Option.some.injEq] at hs
          obtain ⟨-, rfl⟩ := hs
          exact ⟨_, rfl, .same hmine (fun _ => rfl) rfl⟩
  | delete call f old =>
      have hframes : (s.deleteMap old f).frames = s.frames := by
        unfold deleteMap
        split <;> rfl
      have hthreads : (s.deleteMap old f).threads = s.threads := by
        unfold deleteMap
        split <;> rfl
      simp only [runThread] at hs
      split at hs <;> cases hs
      · refine ⟨_, congrArg (update · t _) hthreads, .same hmine (fun g => ?_) rfl⟩
        exact congrArg (fun frames => (frames g).latch) hframes
      · refine ⟨_, congrArg (update · t _) hthreads, .same hmine (fun g => ?_) rfl⟩
        exact congrArg (fun frames => (frames g).latch) hframes
  | enqueue call f =>
      cases hs
      exact ⟨_, rfl, .same hmine (fun _ => rfl) rfl⟩
  | undoLatch id f old new =>
      simp only [runThread, Option.ite_none_right_eq_some, Option.some.injEq] at hs
      obtain ⟨hfree, rfl⟩ := hs
      exact ⟨_, rfl, .take rfl rfl hfree rfl rfl⟩
  | undoUnpin id f old new =>
      cases hs
      exact ⟨_, rfl, .sameFrame hmine rfl rfl rfl⟩
  | undoSetId id f old new =>
      cases hs
      exact ⟨_, rfl, .sameFrame hmine rfl rfl rfl⟩
  | undoClearIOInProgress id f new =>
      cases hs
      exact ⟨_, rfl, .sameFrame hmine rfl rfl rfl⟩
  | undoUnlatch id f new =>
      cases hs
      exact ⟨_, rfl, .drop rfl rfl rfl rfl⟩
  | signalLatch f =>
      simp only [runThread, Option.ite_none_right_eq_some, Option.some.injEq] at hs
      obtain ⟨hfree, rfl⟩ := hs
      exact ⟨_, rfl, .take rfl rfl hfree rfl rfl⟩
  | signalClear f =>
      simp only [runThread, Option.ite_none_right_eq_some, Option.some.injEq] at hs
      obtain ⟨-, rfl⟩ := hs
      exact ⟨_, rfl, .sameFrame hmine rfl rfl rfl⟩
  | signalUnlatch f =>
      cases hs
      exact ⟨_, rfl, .drop rfl rfl rfl rfl⟩

theorem latchesOwned_step {a : PoolAction} (h : s.LatchesOwned) (hs : s.step n a = some s') :
    s'.LatchesOwned := by
  have hmine : ∀ t g, (s.threads t).pc.latched = some g → (s.frames g).latch = some t :=
    fun t g => (h g t).mpr
  cases a with
  | pin t id =>
      simp only [step, Option.ite_none_right_eq_some, Option.some.injEq] at hs
      obtain ⟨⟨hidle, -⟩, rfl⟩ := hs
      exact LatchStep.owned (x := ⟨.lookup id, (s.threads t).held⟩)
        (.same (hmine t) (fun _ => rfl) (by rw [hidle]; rfl)) rfl h
  | reserve t tbl =>
      simp only [step, Option.ite_none_right_eq_some, Option.some.injEq] at hs
      obtain ⟨⟨hidle, -⟩, rfl⟩ := hs
      exact LatchStep.owned (x := ⟨.sweep ⟨⟨tbl, s.nextPid tbl⟩, false⟩, (s.threads t).held⟩)
        (.same (hmine t) (fun _ => rfl) (by rw [hidle]; rfl)) rfl h
  | unpin t id f =>
      simp only [step, Option.ite_none_right_eq_some, Option.some.injEq] at hs
      obtain ⟨⟨hidle, -⟩, rfl⟩ := hs
      exact LatchStep.owned (x := ⟨.idle, (s.threads t).held.erase (id, f)⟩)
        (.sameFrame (hmine t) rfl rfl (by rw [hidle])) rfl h
  | signal t f =>
      simp only [step, Option.ite_none_right_eq_some, Option.some.injEq] at hs
      obtain ⟨⟨hidle, -⟩, rfl⟩ := hs
      exact LatchStep.owned (x := ⟨.signalLatch f, (s.threads t).held⟩)
        (.same (hmine t) (fun _ => rfl) (by rw [hidle]; rfl)) rfl h
  | run t =>
      obtain ⟨x, hthreads, hlatch⟩ := latchStep_run (hmine t) hs
      exact hlatch.owned hthreads h

theorem latchesOwned_init : init.LatchesOwned := by
  intro f t
  exact iff_of_false (fun hlatch => by cases hlatch) (fun hlatch => by cases hlatch)

theorem latchesOwned_reachable (hs : (poolSystem n).Reachable s) : s.LatchesOwned :=
  hs.invariant (fun _ h => by rw [show _ = init from h]; exact latchesOwned_init)
    fun _ _ _ h _ hst => latchesOwned_step h hst

/-- While a thread that holds no latch is undisturbed, no frame is latched. -/
theorem LatchesOwned.unlatched (h : s.LatchesOwned) (hquiet : s.Undisturbed t)
    (hpc : (s.threads t).pc.latched = none) (f : Nat) :
    (s.frames f).latch = none := by
  cases hlatch : (s.frames f).latch with
  | none => rfl
  | some u =>
      have howner := (h f u).mp hlatch
      by_cases hut : u = t
      · rw [hut, hpc] at howner
        cases howner
      · rw [hquiet u hut] at howner
        cases howner

end Latches

/-! ## The sweep -/

section Sweep

variable {n : Nat} {s s' : Pool} {t : ThreadId} {call : VictimCall} {f : Nat}

/-- The hand is a 32-bit counter, which only the loop moves. -/
theorem hand_run {pc : PoolPc} (h : s.sweepHead < 2 ^ 32) (hs : s.runThread n t pc = some s') :
    s'.sweepHead < 2 ^ 32 := by
  cases pc with
  | idle => cases hs
  | sweep call =>
      cases hs
      exact Nat.mod_lt _ (by decide)
  | put call f old =>
      simp only [runThread, putMap] at hs
      cases hmap : s.map call.id with
      | none =>
          simp only [hmap] at hs
          cases hs
          exact h
      | some new =>
          simp only [hmap, Option.ite_none_right_eq_some] at hs
          obtain ⟨-, hs⟩ := hs
          cases hs
          exact h
  | delete call f old =>
      have hdelete : (s.deleteMap old f).sweepHead < 2 ^ 32 := by
        unfold deleteMap
        split <;> exact h
      simp only [runThread] at hs
      split at hs <;> cases hs <;> exact hdelete
  | lookup | visitCheck | tryLatch =>
      simp only [runThread] at hs
      split at hs <;> cases hs <;> exact h
  | undoLatch | signalLatch | signalClear =>
      simp only [runThread, Option.ite_none_right_eq_some] at hs
      obtain ⟨-, hs⟩ := hs
      cases hs
      exact h
  | visitPin | visitUnpin | checkPinned | checkDirty | checkIOInProgress | skip | readId | setId
  | pinVictim | setIOInProgress | unlatch | enqueue | undoUnpin | undoSetId | undoClearIOInProgress
  | undoUnlatch | signalUnlatch =>
      cases hs
      exact h

theorem hand_step {a : PoolAction} (h : s.sweepHead < 2 ^ 32) (hs : s.step n a = some s') :
    s'.sweepHead < 2 ^ 32 := by
  cases a with
  | run t => exact hand_run h hs
  | pin | reserve | unpin | signal =>
      simp only [step, Option.ite_none_right_eq_some] at hs
      obtain ⟨-, hs⟩ := hs
      cases hs
      exact h

theorem hand_reachable (hs : (poolSystem n).Reachable s) : s.sweepHead < 2 ^ 32 := by
  refine hs.invariant (P := fun s => s.sweepHead < 2 ^ 32) ?_ fun _ _ _ h _ hst => hand_step h hst
  intro s₀ hinit
  obtain rfl : s₀ = init := hinit
  exact Nat.two_pow_pos 32

/-- Each frame comes under the hand, wherever the hand stands. -/
theorem hand_reaches (head : Nat) (hf : f < n) (hn : n < 2 ^ 32) : ∃ k, u32 (head + k) % n = f := by
  refine ⟨2 ^ 32 - head % 2 ^ 32 + f, ?_⟩
  have hhand : u32 (head + (2 ^ 32 - head % 2 ^ 32 + f)) = f := by
    unfold u32
    omega
  rw [hhand]
  exact Nat.mod_eq_of_lt hf

/-- One round of the loop, up to the latch. -/
theorem steps_latch (hpc : (s.threads t).pc = .sweep call) (hf : s.sweepHead % n = f)
    (hfree : (s.frames f).latch = none) :
    (poolSystem n).Steps (Alone t) s ({ s with sweepHead := u32 (s.sweepHead + 1) }.frameAt t f
      ((s.frames f).setLatch (some t)) (.checkPinned call f)) := by
  refine TSys.Steps.of_exec [.run t, .run t] ?_
  simp [TSys.exec, Alone, poolSystem, step, runThread, goto, hpc, hf, hfree, frameAt, setFrame]

/-- From there the loop goes on, if the frame is not evictable. -/
theorem steps_skip {x : Frame} (hx : ¬ x.IsEvictable) :
    (poolSystem n).Steps (Alone t) (s.frameAt t f x (.checkPinned call f))
    (s.frameAt t f (x.setLatch none) (.sweep call)) := by
  have hskip : (poolSystem n).Steps (Alone t) (s.frameAt t f x (.skip call f))
      (s.frameAt t f (x.setLatch none) (.sweep call)) := by
    refine TSys.Steps.of_exec [.run t] ?_
    simp [TSys.exec, Alone, poolSystem, step_run_frameAt, runThread, frameAt_frames,
      setFrame_goto_frameAt]
  refine TSys.Steps.trans ?_ hskip
  by_cases hpinned : x.refCount > 0
  · refine TSys.Steps.of_exec [.run t] ?_
    simp [TSys.exec, Alone, poolSystem, step_run_frameAt, runThread, frameAt_frames,
      goto_frameAt, hpinned]
  · by_cases hdirty : x.dirty = true
    · refine TSys.Steps.of_exec [.run t, .run t] ?_
      simp [TSys.exec, Alone, poolSystem, step_run_frameAt, runThread, frameAt_frames, goto_frameAt,
        hpinned, hdirty]
    · have hio : x.ioInProgress = true := by
        by_contra hio
        exact hx ⟨by omega, by simpa using hdirty, by simpa using hio⟩
      refine TSys.Steps.of_exec [.run t, .run t, .run t] ?_
      simp [TSys.exec, Alone, poolSystem, step_run_frameAt, runThread, frameAt_frames, goto_frameAt,
        hpinned, hdirty, hio]

/-- And it ends, if the frame is evictable. -/
theorem steps_take {x : Frame} (hx : x.IsEvictable) :
    ∃ s' old, (poolSystem n).Steps (Alone t) (s.frameAt t f x (.checkPinned call f)) s' ∧
      (s'.threads t).pc = .put call f old := by
  obtain ⟨hpinned, hdirty, hio⟩ := hx
  have hchecked : (poolSystem n).Steps (Alone t) (s.frameAt t f x (.checkPinned call f))
      (s.frameAt t f x (.readId call f)) := by
    refine TSys.Steps.of_exec (List.replicate 3 (.run t)) ?_
    simp [TSys.exec, Alone, poolSystem, List.replicate, step_run_frameAt, runThread, frameAt_frames,
      goto_frameAt, hpinned,
      hdirty, hio]
  by_cases hread : call.isIO = true
  · refine ⟨s.frameAt t f (((x.setId call.id).pin.setIOInProgress).setLatch none)
      (.put call f x.id), x.id, hchecked.trans ?_, ?_⟩
    · refine TSys.Steps.of_exec (List.replicate 5 (.run t)) ?_
      simp [TSys.exec, Alone, poolSystem, List.replicate, step_run_frameAt, runThread,
        frameAt_frames, goto_frameAt,
        setFrame_goto_frameAt, hread]
    · simp [frameAt, goto]
  · refine ⟨s.frameAt t f ((x.setId call.id).pin.setLatch none) (.put call f x.id), x.id,
      hchecked.trans ?_, ?_⟩
    · refine TSys.Steps.of_exec (List.replicate 4 (.run t)) ?_
      simp [TSys.exec, Alone, poolSystem, List.replicate, step_run_frameAt, runThread,
        frameAt_frames, goto_frameAt,
        setFrame_goto_frameAt, hread]
    · simp [frameAt, goto]

/-- A round over a frame that is not evictable moves the hand. -/
theorem round_skip (hpc : (s.threads t).pc = .sweep call) (hf : s.sweepHead % n = f)
    (hfree : (s.frames f).latch = none) (hx : ¬ (s.frames f).IsEvictable) :
    (poolSystem n).Steps (Alone t) s { s with sweepHead := u32 (s.sweepHead + 1) } := by
  have hround :=
    (steps_latch hpc hf hfree).trans (steps_skip (x := (s.frames f).setLatch (some t)) hx)
  have hback : ((s.frames f).setLatch (some t)).setLatch none = s.frames f := by
    show { s.frames f with latch := none } = s.frames f
    rw [← hfree]
  have hthread : (⟨.sweep call, (s.threads t).held⟩ : PoolThread) = s.threads t := by rw [← hpc]
  rw [hback] at hround
  unfold frameAt goto setFrame at hround
  simp only [update_eq_self, hthread] at hround
  exact hround

/-- Rounds over frames that are not evictable. -/
theorem rounds_skip (hpc : (s.threads t).pc = .sweep call) (hfree : ∀ f, (s.frames f).latch = none)
    (hhead : s.sweepHead < 2 ^ 32)
    {k : Nat} (hskip : ∀ i < k, ¬ (s.frames (u32 (s.sweepHead + i) % n)).IsEvictable) :
    (poolSystem n).Steps (Alone t) s { s with sweepHead := u32 (s.sweepHead + k) } := by
  induction k with
  | zero =>
      have hstay : u32 (s.sweepHead + 0) = s.sweepHead := Nat.mod_eq_of_lt hhead
      rw [hstay]
      exact .refl
  | succ k ih =>
      have hrest := ih fun i hi => hskip i (Nat.lt_succ_of_lt hi)
      have hnext : u32 (u32 (s.sweepHead + k) + 1) = u32 (s.sweepHead + (k + 1)) := by
        unfold u32
        omega
      have hround :=
        round_skip (s := { s with sweepHead := u32 (s.sweepHead + k) }) (t := t) (n := n)
          hpc rfl (hfree _)
        (hskip k (Nat.lt_succ_self k))
      rw [hnext] at hround
      exact hrest.trans hround

/-- A thread that runs alone ends its sweep at an evictable frame, if the sweep runs over one. -/
theorem sweep_ends (hpc : (s.threads t).pc = .sweep call) (hfree : ∀ f, (s.frames f).latch = none)
    (hhead : s.sweepHead < 2 ^ 32) (hn : n < 2 ^ 32) (hvictim : s.HasVictim n) :
    ∃ s' f old, (poolSystem n).Steps (Alone t) s s' ∧ (s'.threads t).pc = .put call f old ∧ f < n ∧
      (s.frames f).IsEvictable := by
  obtain ⟨f, hf, hevictable⟩ := hvictim
  have hreach : ∃ k, (s.frames (u32 (s.sweepHead + k) % n)).IsEvictable := by
    obtain ⟨k, hk⟩ := hand_reaches s.sweepHead hf hn
    exact ⟨k, by rw [hk]; exact hevictable⟩
  -- the first evictable frame under the hand
  have hfirst := Nat.find_spec hreach
  generalize hk : Nat.find hreach = k at hfirst
  have hskip : ∀ i < k, ¬ (s.frames (u32 (s.sweepHead + i) % n)).IsEvictable := by
    intro i hi
    exact Nat.find_min hreach (by rw [hk]; exact hi)
  have hrounds := rounds_skip (n := n) hpc hfree hhead hskip
  have hlatch :=
    steps_latch (s := { s with sweepHead := u32 (s.sweepHead + k) }) (n := n) hpc rfl (hfree _)
  obtain ⟨s', old, htake, hput⟩ := steps_take (n := n) (t := t) (f := u32 (s.sweepHead + k) % n)
    (s := { s with sweepHead := u32 (u32 (s.sweepHead + k) + 1) })
    (x := (s.frames (u32 (s.sweepHead + k) % n)).setLatch (some t)) hfirst
  exact ⟨s', _, old, (hrounds.trans hlatch).trans htake, hput,
    Nat.mod_lt _ (Nat.zero_lt_of_lt hf), hfirst⟩

end Sweep

/-! ## The size of the pool -/

section Size

variable {pageNum : Nat} {s s' : Pool} {t : ThreadId} {call : VictimCall}

/-- The size plays no part in a step. -/
theorem steps_sized {C : Pool → PoolAction → Prop} :
    (sizedPool pageNum).Steps C s s' ↔ (poolSystem bufferPoolPageNum).Steps C s s' := by
  constructor
  · intro h
    induction h with
    | refl => exact .refl
    | tail _ hc hst ih => exact .tail ih hc hst
  · intro h
    induction h with
    | refl => exact .refl
    | tail _ hc hst ih => exact .tail ih hc hst

theorem reachable_sized (hsize : pageNum < 2 ^ 32) :
    (sizedPool pageNum).Reachable s ↔ (poolSystem bufferPoolPageNum).Reachable s := by
  constructor
  · rintro ⟨s₀, ⟨-, hinit⟩, hsteps⟩
    exact ⟨s₀, hinit, steps_sized.mp hsteps⟩
  · rintro ⟨s₀, hinit, hsteps⟩
    exact ⟨s₀, ⟨hsize, hinit⟩, steps_sized.mpr hsteps⟩

theorem sizeCorrect_default : SizeCorrect bufferPoolPageNum where
  below s hs := below_reachable (by decide) ((reachable_sized (by decide)).mp hs)
  victim s t call hs hpc hquiet hvictim := by
    have hreach := (reachable_sized (by decide)).mp hs
    have hfree := (latchesOwned_reachable hreach).unlatched hquiet (by rw [hpc]; rfl)
    obtain ⟨s', f, old, hsteps, hput, hf⟩ :=
      sweep_ends hpc hfree (hand_reachable hreach) (by decide) hvictim
    exact ⟨s', f, old, steps_sized.mpr hsteps, hput, hf⟩

/-- In a smaller pool the hand runs over the end. -/
theorem not_sizeCorrect_of_lt (hsize : pageNum < bufferPoolPageNum) : ¬ SizeCorrect pageNum := by
  intro h
  have hmax : bufferPoolPageNum = 80000 := rfl
  -- the hand stands at the first frame that is not in the pool
  obtain ⟨s, hreach, hhead, hidle, hmap, hframe⟩ : ∃ s, (poolSystem bufferPoolPageNum).Reachable s ∧
      s.sweepHead = pageNum ∧
      (s.threads 0).pc = .idle ∧ s.map ⟨1, pageNum + 1⟩ = none ∧
        s.frames pageNum = ⟨⟨0, 0⟩, 0, false, false, none⟩ := by
    by_cases hzero : pageNum = 0
    · subst hzero
      exact ⟨init, ⟨init, rfl, .refl⟩, rfl, rfl, rfl, rfl⟩
    · obtain ⟨s, hsteps, hfill, -⟩ :=
        filled (n := bufferPoolPageNum) (Nat.pos_of_ne_zero hzero) (Nat.le_of_lt hsize) (by decide)
      exact ⟨s, ⟨init, rfl, hsteps⟩, hfill.sweepHead, hfill.idle 0,
        hfill.map _ (.inr (Nat.lt_succ_self _)),
        hfill.fresh pageNum (Nat.le_refl _)⟩
  have hfind := steps_findVictim (n := bufferPoolPageNum) (t := 0) ⟨1, pageNum + 1⟩ ⟨0, 0⟩ hidle
    ⟨Nat.succ_ne_zero _, by show pageNum + 1 ≠ 4294967295; omega⟩ hmap
      (by rw [hhead, Nat.mod_eq_of_lt hsize]) hframe
  have hbelow :=
    h.below _ ((reachable_sized (by show pageNum < 4294967296; omega)).mpr (hreach.steps hfind))
  have hlt : pageNum < pageNum := by
    apply hbelow.calls 0
    simp [frameAt, goto, PoolPc.frames]
  exact Nat.lt_irrefl _ hlt

/-- The sweep of thread `t` runs over pinned frames only. -/
structure Sweeping (n : Nat) (call : VictimCall) (t : ThreadId) (s : Pool) : Prop where
  pinned : ∀ f < n, 0 < (s.frames f).refCount
  pc : (s.threads t).pc = .sweep call ∨
    ∃ f < n, (s.threads t).pc = .tryLatch call f ∨ (s.threads t).pc = .checkPinned call f ∨
      (s.threads t).pc = .skip call f

theorem pinned_setLatch {n : Nat} (h : ∀ f < n, 0 < (s.frames f).refCount) (g : Nat)
    (owner : Option ThreadId) :
    ∀ f < n, 0 < (update s.frames g ((s.frames g).setLatch owner) f).refCount := by
  intro f hf
  by_cases hfg : f = g
  · subst hfg
    rw [update_self]
    exact h f hf
  · rw [update_of_ne hfg]
    exact h f hf

/-- A frame that is pinned is skipped. -/
theorem Sweeping.step {n : Nat} (hn : 0 < n) (h : Sweeping n call t s) {a : PoolAction}
    (ha : Alone t s a) (hs : s.step n a = some s') : Sweeping n call t s' := by
  cases ha
  change s.runThread n t (s.threads t).pc = some s' at hs
  have hgoto : ∀ (r : Pool) (pc : PoolPc), ((r.goto t pc).threads t).pc = pc :=
    fun r pc => by simp [goto]
  rcases h.pc with hpc | ⟨f, hf, hpc | hpc | hpc⟩
  · rw [hpc] at hs
    cases hs
    exact ⟨h.pinned, .inr ⟨_, Nat.mod_lt _ hn, .inl (hgoto _ _)⟩⟩
  · rw [hpc] at hs
    simp only [runThread] at hs
    split at hs <;> cases hs
    · exact ⟨pinned_setLatch h.pinned f _, .inr ⟨f, hf, .inr (.inl (hgoto _ _))⟩⟩
    · exact ⟨h.pinned, .inl (hgoto _ _)⟩
  · rw [hpc] at hs
    simp only [runThread, if_pos (h.pinned f hf), Option.some.injEq] at hs
    subst hs
    exact ⟨h.pinned, .inr ⟨f, hf, .inr (.inr (hgoto _ _))⟩⟩
  · rw [hpc] at hs
    cases hs
    exact ⟨pinned_setLatch h.pinned f _, .inl (hgoto _ _)⟩

/-- In a larger pool the frames behind the end of the sweep are never taken. -/
theorem not_sizeCorrect_of_gt (hsize : bufferPoolPageNum < pageNum) (hlt : pageNum < 2 ^ 32) :
    ¬ SizeCorrect pageNum := by
  intro h
  have hmax : bufferPoolPageNum = 80000 := rfl
  obtain ⟨s, hsteps, hfill, hpinned⟩ :=
    filled (n := bufferPoolPageNum) (by decide) (Nat.le_refl _) (by decide)
  -- a thread that looks for a victim for one more page
  have hid : (⟨1, bufferPoolPageNum + 1⟩ : PageIdentifier).pid ≠ 0 ∧
      (⟨1, bufferPoolPageNum + 1⟩ : PageIdentifier).pid ≠ 2 ^ 32 - 1 := by
    decide
  have hmap := hfill.map ⟨1, bufferPoolPageNum + 1⟩ (.inr (Nat.lt_succ_self _))
  have henter :
      (poolSystem bufferPoolPageNum).Steps TSys.Always s
      (s.goto 0 (.sweep ⟨⟨1, bufferPoolPageNum + 1⟩, true⟩)) := by
    have hpin : s.step bufferPoolPageNum (.pin 0 ⟨1, bufferPoolPageNum + 1⟩) =
        some (s.goto 0 (.lookup ⟨1, bufferPoolPageNum + 1⟩)) := if_pos ⟨hfill.idle 0, hid⟩
    refine TSys.Steps.of_exec [.pin 0 ⟨1, bufferPoolPageNum + 1⟩, .run 0] ?_
    simp only [TSys.exec, TSys.Always, poolSystem, hpin, if_true, Option.bind_some]
    simp [step, goto, runThread, hmap]
  generalize hcall : (⟨⟨1, bufferPoolPageNum + 1⟩, true⟩ : VictimCall) = call at henter
  have hreach : (sizedPool pageNum).Reachable (s.goto 0 (.sweep call)) :=
    (reachable_sized hlt).mpr ⟨init, rfl, hsteps.trans henter⟩
  have hpc : ((s.goto 0 (.sweep call)).threads 0).pc = .sweep call := by simp [goto]
  have hquiet : (s.goto 0 (.sweep call)).Undisturbed 0 := by
    intro u hu
    show (update s.threads 0 _ u).pc.latched = none
    rw [update_of_ne hu, hfill.idle u]
    rfl
  have hvictim : (s.goto 0 (.sweep call)).HasVictim pageNum := by
    refine ⟨bufferPoolPageNum, hsize, ?_⟩
    show (s.frames bufferPoolPageNum).IsEvictable
    rw [hfill.fresh _ (Nat.le_refl _)]
    exact ⟨rfl, rfl, rfl⟩
  obtain ⟨s', f, old, hrun, hput, -, -⟩ := h.victim _ 0 call hreach hpc hquiet hvictim
  have hsweeping := (steps_sized.mp hrun).invariant (P := Sweeping bufferPoolPageNum call 0)
    (fun _ _ _ hsweep ha hst => hsweep.step (by decide) ha hst) ⟨hpinned, .inl hpc⟩
  rcases hsweeping.pc with hnow | ⟨f, -, hnow | hnow | hnow⟩ <;> rw [hnow] at hput <;> cases hput

/-- The frames that are handled lie in the pool, and victims are found, exactly in a pool of the
default size. A constructor for 2^32 frames or more does not return. -/
theorem sizeCorrect_iff (pageNum : Nat) : SizeCorrect pageNum ↔ pageNum = bufferPoolPageNum ∨
      2 ^ 32 ≤ pageNum := by
  rcases Nat.lt_or_ge pageNum (2 ^ 32) with hlt | hge
  · constructor
    · intro h
      rcases Nat.lt_trichotomy pageNum bufferPoolPageNum with hless | heq | hmore
      · exact absurd h (not_sizeCorrect_of_lt hless)
      · exact .inl heq
      · exact absurd h (not_sizeCorrect_of_gt hmore hlt)
    · rintro (heq | hge)
      · rw [heq]
        exact sizeCorrect_default
      · exact absurd hlt (Nat.not_lt.mpr hge)
  · refine iff_of_true ⟨?_, ?_⟩ (.inr hge)
    · rintro s ⟨s₀, ⟨hlt, -⟩, -⟩
      exact absurd hlt (Nat.not_lt.mpr hge)
    · rintro s t call ⟨s₀, ⟨hlt, -⟩, -⟩
      exact absurd hlt (Nat.not_lt.mpr hge)

/-- In the pool of 256 frames the hand runs over the end. -/
theorem small_pool_overrun : ¬ SizeCorrect 256 := not_sizeCorrect_of_lt (by decide)

end Size

end Pool

end Db7
