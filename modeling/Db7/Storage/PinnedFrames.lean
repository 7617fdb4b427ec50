import Db7.Lib.Total
import Db7.Storage.BufferPool
import Mathlib.Data.List.Count

/-!
# A pinned frame keeps its page

`ref_count_` counts the threads that hold a frame or are about to look at it
(`Balanced.refs`), so a frame whose count is zero belongs to nobody. `GetVictim`
tests the count and only then overwrites the id, and `PageVisit` pins without
the frame latch: between the two a visitor can pin the frame, find the old id
and return. `UndoState` puts the old id back after it has given up its pin.

* **no overwritten pins** (`usePageCorrect`): in a run in which every `SetId`
  meets a count of zero, the frame that `Pin(id)` returned carries `id` until it
  is unpinned;
* **the race** (`pinned_frame_overwritten`): without that, it does not.
-/

namespace Db7

open Lib Function

namespace PoolPc

/-- The frame that a call under way has pinned. -/
def pinned : PoolPc → Option Nat
  | visitCheck _ f _ | visitUnpin _ f _ | setIOInProgress _ f _ | unlatch _ f _ | put _ f _
  | delete _ f _ | enqueue _ f | undoLatch _ f _ _ | undoUnpin _ f _ _ => some f
  | _ => none

theorem pinned_idle : idle.pinned = none := rfl

/-- The frame whose latch a call under way holds. -/
def latched : PoolPc → Option Nat
  | checkPinned _ f | checkDirty _ f | checkIOInProgress _ f | skip _ f | readId _ f | setId _ f _
  | pinVictim _ f _ | setIOInProgress _ f _ | unlatch _ f _ | undoUnpin _ f _ _ | undoSetId _ f _ _
  | undoClearIOInProgress _ f _ | undoUnlatch _ f _ | signalClear f | signalUnlatch f => some f
  | _ => none

/-- The frame that a call under way has taken for its page. -/
def owned : PoolPc → Option (PageIdentifier × Nat)
  | pinVictim call f _ | setIOInProgress call f _ | unlatch call f _ | put call f _
  | delete call f _ | enqueue call f => some (call.id, f)
  | _ => none

/-- The frame whose id the next step overwrites. -/
def overwrites : PoolPc → Option Nat
  | setId _ f _ | undoSetId _ f _ _ => some f
  | _ => none

/-- The frame that the next step pins. -/
def pins : PoolPc → Option Nat
  | visitPin _ f _ | pinVictim _ f _ => some f
  | _ => none

end PoolPc

/-- The thread that an action is of. -/
def PoolAction.thread : PoolAction → ThreadId
  | .pin t _ | .reserve t _ | .unpin t _ _ | .signal t _ | .run t => t

namespace PoolThread

/-- How often the thread has frame `f` pinned. -/
def pinCount (x : PoolThread) (f : Nat) : Nat :=
  (x.held.countP fun p => p.2 = f) + if x.pc.pinned = some f then 1 else 0

/-- The thread relies on frame `f` carrying `id`. -/
def Claims (x : PoolThread) (id : PageIdentifier) (f : Nat) : Prop :=
  (id, f) ∈ x.held ∨ x.pc.owned = some (id, f)

end PoolThread

namespace Pool

/-- `SetId` meets a pin count of zero, and no pin count runs over. -/
def SetsIdUnpinned (s : Pool) : PoolAction → Prop
  | .run t =>
      (∀ f ∈ (s.threads t).pc.overwrites, (s.frames f).refCount = 0) ∧
      (∀ f ∈ (s.threads t).pc.pins, (s.frames f).refCount + 1 < 2 ^ 32)
  | _ => True

instance (s : Pool) : (a : PoolAction) → Decidable (s.SetsIdUnpinned a)
  | .run t => inferInstanceAs (Decidable (
      (∀ f ∈ (s.threads t).pc.overwrites, (s.frames f).refCount = 0) ∧
      (∀ f ∈ (s.threads t).pc.pins, (s.frames f).refCount + 1 < 2 ^ 32)))
  | .pin .. | .reserve .. | .unpin .. | .signal .. => inferInstanceAs (Decidable True)

/-- No pin count runs over. -/
def NoPinOverflow (s : Pool) : PoolAction → Prop
  | .run t => ∀ f ∈ (s.threads t).pc.pins, (s.frames f).refCount + 1 < 2 ^ 32
  | _ => True

instance (s : Pool) : (a : PoolAction) → Decidable (s.NoPinOverflow a)
  | .run t => inferInstanceAs
    (Decidable (∀ f ∈ (s.threads t).pc.pins, (s.frames f).refCount + 1 < 2 ^ 32))
  | .pin .. | .reserve .. | .unpin .. | .signal .. => inferInstanceAs (Decidable True)

theorem SetsIdUnpinned.noPinOverflow {s : Pool} {a : PoolAction} (h : s.SetsIdUnpinned a) :
    s.NoPinOverflow a := by
  cases a with
  | run t => exact h.2
  | pin | reserve | unpin | signal => trivial

/-- The pin counts and the latches are those of the threads. -/
structure Balanced (s : Pool) : Prop where
  refs : ∀ f, HasTotal (fun t => (s.threads t).pinCount f) (s.frames f).refCount
  refs_lt : ∀ f, (s.frames f).refCount < 2 ^ 32
  latch : ∀ t f, (s.threads t).pc.latched = some f → (s.frames f).latch = some t

/-- And a frame carries the page that a thread relies on. -/
structure PoolInv (s : Pool) : Prop extends Balanced s where
  ids : ∀ t id f, (s.threads t).Claims id f → (s.frames f).id = id

/-- What a step of thread `t` does: its pins move with the counts, its latches are its own,
it overwrites the id of a frame only where its program counter says so, and it relies on a
frame only when the frame carries the page. -/
structure ThreadStep (s s' : Pool) (t : ThreadId) : Prop where
  others : ∀ u, u ≠ t → s'.threads u = s.threads u
  refs : ∀ f, (s'.frames f).refCount + (s.threads t).pinCount f =
    (s.frames f).refCount + (s'.threads t).pinCount f
  refs_lt : ∀ f, (s'.frames f).refCount < 2 ^ 32
  latches : ∀ f, (s'.frames f).latch = (s.frames f).latch ∨
    (s.frames f).latch = none ∨ (s.threads t).pc.latched = some f
  latch : ∀ f, (s'.threads t).pc.latched = some f → (s'.frames f).latch = some t
  ids : ∀ f, (s'.frames f).id = (s.frames f).id ∨ (s.threads t).pc.overwrites = some f
  claims : ∀ id f, (s'.threads t).Claims id f → (s.threads t).Claims id f ∨ (s'.frames f).id = id

theorem pinCount_pos_of_held {x : PoolThread} {id : PageIdentifier} {f : Nat}
    (h : (id, f) ∈ x.held) : 0 < x.pinCount f := by
  have : 0 < x.held.countP fun p => p.2 = f := List.countP_pos_iff.mpr ⟨_, h, by simp⟩
  simp only [PoolThread.pinCount]
  omega

/-- A thread that relies on a frame has it pinned or latched. -/
theorem pinned_or_latched {x : PoolThread} {id : PageIdentifier} {f : Nat}
    (h : x.Claims id f) : 0 < x.pinCount f ∨ x.pc.latched = some f := by
  rcases h with hheld | howned
  · exact .inl (pinCount_pos_of_held hheld)
  · obtain ⟨pc, held⟩ := x
    cases pc <;> simp_all [PoolPc.owned, PoolPc.latched, PoolPc.pinned, PoolThread.pinCount]

/-- A call that overwrites an id has latched the frame, and does not rely on it. -/
theorem latched_of_overwrites {pc : PoolPc} {f : Nat} (h : pc.overwrites = some f) :
    pc.latched = some f ∧ pc.owned = none := by
  cases pc <;> simp_all [PoolPc.overwrites, PoolPc.latched, PoolPc.owned]

/-- One latch has one owner. -/
theorem Balanced.latch_unique {s : Pool} {t u : ThreadId} {f : Nat} (h : Balanced s)
    (ht : (s.threads t).pc.latched = some f) (hu : (s.threads u).pc.latched = some f) : t = u := by
  have hlatch := h.latch t f ht
  rw [h.latch u f hu] at hlatch
  exact (Option.some.inj hlatch).symm

theorem Balanced.of_threadStep {s s' : Pool} {t : ThreadId} (h : Balanced s)
    (hs : ThreadStep s s' t) : Balanced s' where
  refs f := by
    refine (h.refs f).step t (fun u hu => by rw [hs.others u hu]) (hs.refs f)
  refs_lt := hs.refs_lt
  latch u f hu := by
    by_cases hut : u = t
    · subst hut; exact hs.latch f hu
    · rw [hs.others u hut] at hu
      have hold := h.latch u f hu
      rcases hs.latches f with hsame | hfree | hmine
      · rw [hsame, hold]
      · simp [hold] at hfree
      · exact absurd (h.latch_unique hu hmine) hut

/-- When the id is overwritten at count zero, nobody has relied on it. -/
theorem PoolInv.of_threadStep {s s' : Pool} {t : ThreadId} (h : PoolInv s) (hs : ThreadStep s s' t)
    (hzero : ∀ f ∈ (s.threads t).pc.overwrites, (s.frames f).refCount = 0) : PoolInv s' where
  toBalanced := h.toBalanced.of_threadStep hs
  ids u id f hu := by
    have hkept : (s.threads u).Claims id f → (s'.frames f).id = id := by
      intro hold
      rcases hs.ids f with hsame | hover
      · rw [hsame]
        exact h.ids u id f hold
      · have hrefs := h.refs f
        rw [hzero f hover] at hrefs
        obtain ⟨hlatched, hfree⟩ := latched_of_overwrites hover
        rcases pinned_or_latched hold with hpin | hlatch
        · have hnone := hrefs.eq_zero u
          omega
        · obtain rfl := h.latch_unique hlatch hlatched
          rcases hold with hheld | howned
          · have hnone := hrefs.eq_zero u
            have hpos := pinCount_pos_of_held hheld
            omega
          · rw [hfree] at howned
            cases howned
    by_cases hut : u = t
    · subst hut
      exact (hs.claims id f hu).elim hkept fun hid => hid
    · rw [hs.others u hut] at hu
      exact hkept hu

/-! ## Every step is a thread step -/

section Steps

variable {s s' : Pool} {t : ThreadId} {f : Nat} {x : Frame} {pc' : PoolPc}

/-- A step inside a call: it may change one frame, and moves the thread. -/
theorem threadStep_move (h : Balanced s) (hframes : s'.frames = update s.frames f x)
    (hthreads : s'.threads = update s.threads t ⟨pc', (s.threads t).held⟩)
    (hpin : ∀ g, g ≠ f → (pc'.pinned = some g ↔ (s.threads t).pc.pinned = some g))
    (href : x.refCount + (if (s.threads t).pc.pinned = some f then 1 else 0) =
      (s.frames f).refCount + if pc'.pinned = some f then 1 else 0)
    (hlt : x.refCount < 2 ^ 32)
    (hlatches : x.latch = (s.frames f).latch ∨ (s.frames f).latch = none ∨
      (s.threads t).pc.latched = some f)
    (hlatch : ∀ g, pc'.latched = some g → g = f ∧ x.latch = some t)
    (hid : x.id = (s.frames f).id ∨ (s.threads t).pc.overwrites = some f)
    (howned : ∀ id g, pc'.owned = some (id, g) → (s.threads t).pc.owned = some (id, g) ∨
      g = f ∧ x.id = id) :
    ThreadStep s s' t := by
  have hframe : ∀ g, g ≠ f → s'.frames g = s.frames g := fun g hg => by simp [hframes, hg]
  have hat : s'.frames f = x := by simp [hframes]
  have hnew : s'.threads t = ⟨pc', (s.threads t).held⟩ := by simp [hthreads]
  refine ⟨fun u hu => by simp [hthreads, hu], fun g => ?_, fun g => ?_, fun g => ?_, fun g hg => ?_,
    fun g => ?_, fun id g hc => ?_⟩
  · by_cases hg : g = f
    · subst hg
      have hcount : (s'.threads t).pinCount g = (s.threads t).held.countP (fun p => p.2 = g) +
          if pc'.pinned = some g then 1 else 0 := by rw [hnew]; rfl
      rw [hat, hcount, PoolThread.pinCount]
      omega
    · have := hpin g hg
      simp only [hframe g hg, hnew, PoolThread.pinCount, this]
  · by_cases hg : g = f
    · rw [hg, hat]; exact hlt
    · rw [hframe g hg]; exact h.refs_lt g
  · by_cases hg : g = f
    · rw [hg, hat]; exact hlatches
    · exact .inl (by rw [hframe g hg])
  · obtain ⟨rfl, hx⟩ := hlatch g (by simpa [hnew] using hg)
    rw [hat, hx]
  · by_cases hg : g = f
    · rw [hg, hat]; exact hid
    · exact .inl (by rw [hframe g hg])
  · rw [hnew] at hc
    rcases hc with hheld | hown
    · exact .inl (.inl hheld)
    · rcases howned id g hown with hold | ⟨rfl, hx⟩
      · exact .inl (.inr hold)
      · exact .inr (by rw [hat, hx])

/-- A step inside a call that changes no frame. -/
theorem threadStep_goto (h : Balanced s) (hframes : s'.frames = s.frames)
    (hthreads : s'.threads = update s.threads t ⟨pc', (s.threads t).held⟩)
    (hpin : pc'.pinned = (s.threads t).pc.pinned)
    (hlatch : ∀ g, pc'.latched = some g → (s.threads t).pc.latched = some g)
    (howned : ∀ id g, pc'.owned = some (id, g) → (s.threads t).pc.owned = some (id, g)) :
    ThreadStep s s' t := by
  have hnew : s'.threads t = ⟨pc', (s.threads t).held⟩ := by simp [hthreads]
  refine ⟨fun u hu => by simp [hthreads, hu], fun g => ?_, fun g => by
    rw [hframes]; exact h.refs_lt g,
    fun g => .inl (by rw [hframes]), fun g hg => ?_, fun g => .inl (by rw [hframes]),
    fun id g hc => .inl ?_⟩
  · simp only [hframes, hnew, PoolThread.pinCount, hpin]
  · rw [hframes]
    exact h.latch t g (hlatch g (by simpa [hnew] using hg))
  · rw [hnew] at hc
    exact hc.imp_right (howned id g)

/-- A call returns frame `f`, which carries the page or is the call's own. -/
theorem threadStep_give (h : Balanced s) (id : PageIdentifier) (hframes : s'.frames = s.frames)
    (hthreads : s'.threads = update s.threads t ⟨.idle, (id, f) :: (s.threads t).held⟩)
    (hpin : (s.threads t).pc.pinned = some f)
    (hid : (s.threads t).pc.owned = some (id, f) ∨ (s.frames f).id = id) :
    ThreadStep s s' t := by
  have hnew : s'.threads t = ⟨.idle, (id, f) :: (s.threads t).held⟩ := by simp [hthreads]
  refine ⟨fun u hu => by simp [hthreads, hu], fun g => ?_, fun g => by
    rw [hframes]; exact h.refs_lt g,
    fun g => .inl (by rw [hframes]), fun g hg => by simp [hnew, PoolPc.latched] at hg,
    fun g => .inl (by rw [hframes]), fun id' g hc => ?_⟩
  · by_cases hg : f = g
    · subst hg
      simp [hframes, hnew, PoolThread.pinCount, hpin, PoolPc.pinned_idle]
    · simp [hframes, hnew, PoolThread.pinCount, hpin, PoolPc.pinned_idle, hg]
  · rw [hnew] at hc
    rw [hframes]
    rcases hc with hheld | hown
    · rcases List.mem_cons.mp hheld with heq | hheld
      · obtain ⟨rfl, rfl⟩ := Prod.mk.inj heq
        exact hid.imp_left .inr
      · exact .inl (.inl hheld)
    · simp [PoolPc.owned] at hown

theorem u32Pred_pos {n : Nat} (h : 0 < n) : u32Pred n = n - 1 := if_neg (by omega)

theorem pin_refCount {x : Frame} (h : x.refCount + 1 < 2 ^ 32) :
    x.pin.refCount = x.refCount + 1 := Nat.mod_eq_of_lt h

theorem unpin_refCount {x : Frame} (h : 0 < x.refCount) : x.unpin.refCount = x.refCount - 1 :=
  u32Pred_pos h

/-- A thread with a pin on `f` finds its count positive. -/
theorem refCount_pos (h : Balanced s) (hpin : (s.threads t).pc.pinned = some f) :
    0 < (s.frames f).refCount := by
  have hle := (h.refs f).le_total t
  simp only [PoolThread.pinCount, hpin, if_true] at hle
  omega

theorem threadStep_unpin (h : Balanced s) {id : PageIdentifier}
    (hpc : (s.threads t).pc = .idle) (hheld : (id, f) ∈ (s.threads t).held)
    (hframes : s'.frames = update s.frames f (s.frames f).unpin)
    (hthreads : s'.threads = update s.threads t ⟨.idle, (s.threads t).held.erase (id, f)⟩) :
    ThreadStep s s' t := by
  have hframe : ∀ g, g ≠ f → s'.frames g = s.frames g := fun g hg => by simp [hframes, hg]
  have hat : s'.frames f = (s.frames f).unpin := by simp [hframes]
  have hnew : s'.threads t = ⟨.idle, (s.threads t).held.erase (id, f)⟩ := by simp [hthreads]
  have hpos : 0 < (s.frames f).refCount :=
    lt_of_lt_of_le (pinCount_pos_of_held hheld) ((h.refs f).le_total t)
  have hu32 : (s.frames f).unpin.refCount = (s.frames f).refCount - 1 := u32Pred_pos hpos
  refine ⟨fun u hu => by simp [hthreads, hu], fun g => ?_, fun g => ?_, fun g => ?_, fun g hg => ?_,
    fun g => ?_, fun id' g hc => ?_⟩
  · by_cases hg : f = g
    · subst hg
      have hcount : 0 < (s.threads t).held.countP fun p => p.2 = f :=
        List.countP_pos_iff.mpr ⟨_, hheld, by simp⟩
      simp only [hat, hu32, hnew, PoolThread.pinCount, hpc, PoolPc.pinned_idle, List.countP_erase,
        hheld]
      simp
      omega
    · simp [hframe g (Ne.symm hg), hnew, PoolThread.pinCount, hpc, PoolPc.pinned_idle,
        List.countP_erase, hg]
  · by_cases hg : g = f
    · subst hg
      have := h.refs_lt g
      rw [hat, hu32]
      omega
    · rw [hframe g hg]; exact h.refs_lt g
  · by_cases hg : g = f
    · subst hg; exact .inl (by rw [hat]; rfl)
    · exact .inl (by rw [hframe g hg])
  · simp [hnew, PoolPc.latched] at hg
  · by_cases hg : g = f
    · subst hg; exact .inl (by rw [hat]; rfl)
    · exact .inl (by rw [hframe g hg])
  · rw [hnew] at hc
    rcases hc with hmem | hown
    · exact .inl (.inl (List.mem_of_mem_erase hmem))
    · simp [PoolPc.owned] at hown

end Steps

theorem threads_goto (s : Pool) (t : ThreadId) (pc : PoolPc) :
    (s.goto t pc).threads = update s.threads t ⟨pc, (s.threads t).held⟩ := rfl

/-- A step that changes frame `f` and moves the thread from `pc` to `pc'`. -/
theorem threadStep_frame {s : Pool} {t : ThreadId} {f : Nat} {x : Frame} {pc pc' : PoolPc}
    (h : Balanced s) (hpc : (s.threads t).pc = pc)
    (hpin : ∀ g, g ≠ f → (pc'.pinned = some g ↔ pc.pinned = some g))
    (href : x.refCount + (if pc.pinned = some f then 1 else 0) =
      (s.frames f).refCount + if pc'.pinned = some f then 1 else 0)
    (hlt : x.refCount < 2 ^ 32)
    (hlatches : x.latch = (s.frames f).latch ∨ (s.frames f).latch = none ∨ pc.latched = some f)
    (hlatch : ∀ g, pc'.latched = some g → g = f ∧ x.latch = some t)
    (hid : x.id = (s.frames f).id ∨ pc.overwrites = some f)
    (howned : ∀ id g, pc'.owned = some (id, g) → pc.owned = some (id, g) ∨ g = f ∧ x.id = id) :
    ThreadStep s ((s.setFrame f x).goto t pc') t := by
  subst hpc
  exact threadStep_move h rfl rfl hpin href hlt hlatches hlatch hid howned

theorem threadStep_run {n : Nat} {s s' : Pool} {t : ThreadId} (h : Balanced s)
    (hroom : s.NoPinOverflow (.run t)) (hs : s.runThread n t (s.threads t).pc = some s') :
    ThreadStep s s' t := by
  cases hpc : (s.threads t).pc with
  | idle => simp [hpc, runThread] at hs
  | lookup id =>
      simp only [hpc, runThread] at hs
      split at hs <;> obtain rfl := Option.some.inj hs <;>
        exact threadStep_goto h rfl rfl (by simp [hpc, PoolPc.pinned]) (by simp [PoolPc.latched])
          (by simp [PoolPc.owned])
  | visitPin id f retry =>
      simp only [hpc, runThread, Option.some.injEq] at hs
      obtain rfl := hs
      have hlt : (s.frames f).refCount + 1 < 2 ^ 32 := hroom f (by simp [hpc, PoolPc.pins])
      exact threadStep_frame h hpc (by simp [PoolPc.pinned, eq_comm])
        (by simp [PoolPc.pinned, pin_refCount hlt]) (by rw [pin_refCount hlt]; exact hlt) (.inl rfl)
        (by simp [PoolPc.latched]) (.inl rfl) (by simp [PoolPc.owned])
  | visitCheck id f retry =>
      simp only [hpc, runThread] at hs
      split at hs <;> obtain rfl := Option.some.inj hs
      · exact threadStep_give h id rfl rfl (by simp [hpc, PoolPc.pinned]) (.inr ‹_›)
      · exact threadStep_goto h rfl rfl (by simp [hpc, PoolPc.pinned]) (by simp [PoolPc.latched])
          (by simp [PoolPc.owned])
  | visitUnpin id f retry =>
      simp only [hpc, runThread, Option.some.injEq] at hs
      obtain rfl := hs
      have hpos := refCount_pos h (t := t) (f := f) (by simp [hpc, PoolPc.pinned])
      have hlt := h.refs_lt f
      have hu := unpin_refCount hpos
      cases retry <;>
        exact threadStep_frame h hpc (by simp [PoolPc.pinned, eq_comm])
          (by simp [PoolPc.pinned, hu]; omega) (by omega) (.inl rfl)
          (by simp [PoolPc.latched]) (.inl rfl) (by simp [PoolPc.owned])
  | sweep call =>
      simp only [hpc, runThread, Option.some.injEq] at hs
      obtain rfl := hs
      exact threadStep_goto h rfl rfl (by simp [hpc, PoolPc.pinned]) (by simp [PoolPc.latched])
        (by simp [PoolPc.owned])
  | tryLatch call f =>
      simp only [hpc, runThread] at hs
      split at hs <;> obtain rfl := Option.some.inj hs
      · exact threadStep_frame h hpc (by simp [PoolPc.pinned]) (by simp [PoolPc.pinned])
          (h.refs_lt f) (.inr (.inl ‹_›)) (by simp [PoolPc.latched, eq_comm]) (.inl rfl)
          (by simp [PoolPc.owned])
      · exact threadStep_goto h rfl rfl (by simp [hpc, PoolPc.pinned]) (by simp [PoolPc.latched])
          (by simp [PoolPc.owned])
  | checkPinned call f =>
      simp only [hpc, runThread, Option.some.injEq] at hs
      obtain rfl := hs
      split <;> exact threadStep_goto h rfl rfl (by simp [hpc, PoolPc.pinned])
        (by simp [hpc, PoolPc.latched]) (by simp [PoolPc.owned])
  | checkDirty call f =>
      simp only [hpc, runThread, Option.some.injEq] at hs
      obtain rfl := hs
      split <;> exact threadStep_goto h rfl rfl (by simp [hpc, PoolPc.pinned])
        (by simp [hpc, PoolPc.latched]) (by simp [PoolPc.owned])
  | checkIOInProgress call f =>
      simp only [hpc, runThread, Option.some.injEq] at hs
      obtain rfl := hs
      split <;> exact threadStep_goto h rfl rfl (by simp [hpc, PoolPc.pinned])
        (by simp [hpc, PoolPc.latched]) (by simp [PoolPc.owned])
  | skip call f =>
      simp only [hpc, runThread, Option.some.injEq] at hs
      obtain rfl := hs
      exact threadStep_frame h hpc (by simp [PoolPc.pinned]) (by simp [PoolPc.pinned])
        (h.refs_lt f) (.inr (.inr rfl)) (by simp [PoolPc.latched]) (.inl rfl)
        (by simp [PoolPc.owned])
  | readId call f =>
      simp only [hpc, runThread, Option.some.injEq] at hs
      obtain rfl := hs
      exact threadStep_goto h rfl rfl (by simp [hpc, PoolPc.pinned])
        (by simp [hpc, PoolPc.latched]) (by simp [PoolPc.owned])
  | setId call f old =>
      simp only [hpc, runThread, Option.some.injEq] at hs
      obtain rfl := hs
      -- the one step that gives a frame to another page
      have hmine : (s.frames f).latch = some t := h.latch t f (by simp [hpc, PoolPc.latched])
      exact threadStep_frame h hpc (by simp [PoolPc.pinned]) (by simp [PoolPc.pinned])
        (h.refs_lt f) (.inl rfl) (by simp [PoolPc.latched, hmine, eq_comm]) (.inr rfl)
        (by simp [PoolPc.owned, eq_comm])
  | pinVictim call f old =>
      simp only [hpc, runThread, Option.some.injEq] at hs
      obtain rfl := hs
      have hlt : (s.frames f).refCount + 1 < 2 ^ 32 := hroom f (by simp [hpc, PoolPc.pins])
      have hmine : (s.frames f).latch = some t := h.latch t f (by simp [hpc, PoolPc.latched])
      split <;>
        exact threadStep_frame h hpc (by simp [PoolPc.pinned, eq_comm])
          (by simp [PoolPc.pinned, pin_refCount hlt]) (by rw [pin_refCount hlt]; exact hlt)
          (.inl rfl) (by simp [PoolPc.latched, hmine, eq_comm]) (.inl rfl)
          (by simp [PoolPc.owned])
  | setIOInProgress call f old =>
      simp only [hpc, runThread, Option.some.injEq] at hs
      obtain rfl := hs
      have hmine : (s.frames f).latch = some t := h.latch t f (by simp [hpc, PoolPc.latched])
      exact threadStep_frame h hpc (by simp [PoolPc.pinned]) (by simp [PoolPc.pinned])
        (h.refs_lt f) (.inl rfl) (by simp [PoolPc.latched, hmine, eq_comm]) (.inl rfl)
        (by simp [PoolPc.owned])
  | unlatch call f old =>
      simp only [hpc, runThread, Option.some.injEq] at hs
      obtain rfl := hs
      exact threadStep_frame h hpc (by simp [PoolPc.pinned]) (by simp [PoolPc.pinned])
        (h.refs_lt f) (.inr (.inr rfl)) (by simp [PoolPc.latched]) (.inl rfl)
        (by simp [PoolPc.owned])
  | put call f old =>
      simp only [hpc, runThread, putMap] at hs
      cases hmap : s.map call.id with
      | none =>
          simp only [hmap, Option.some.injEq] at hs
          obtain rfl := hs
          exact threadStep_goto h rfl rfl (by simp [hpc, PoolPc.pinned])
            (by simp [PoolPc.latched]) (by simp [hpc, PoolPc.owned])
      | some new =>
          simp only [hmap, Option.ite_none_right_eq_some, Option.some.injEq] at hs
          obtain ⟨-, rfl⟩ := hs
          exact threadStep_goto h rfl rfl (by simp [hpc, PoolPc.pinned])
            (by simp [PoolPc.latched]) (by simp [PoolPc.owned])
  | delete call f old =>
      simp only [hpc, runThread] at hs
      have hframes : (s.deleteMap old f).frames = s.frames := by unfold deleteMap; split <;> rfl
      have hthreads : (s.deleteMap old f).threads = s.threads := by unfold deleteMap; split <;> rfl
      split at hs <;> obtain rfl := Option.some.inj hs
      · exact threadStep_goto h hframes (by rw [threads_goto, hthreads])
          (by simp [hpc, PoolPc.pinned]) (by simp [PoolPc.latched]) (by simp [hpc, PoolPc.owned])
      · exact threadStep_give (f := f) h call.id hframes (by simp only [give, hthreads])
          (by simp [hpc, PoolPc.pinned]) (.inl (by simp [hpc, PoolPc.owned]))
  | enqueue call f =>
      simp only [hpc, runThread, Option.some.injEq] at hs
      obtain rfl := hs
      exact threadStep_give h call.id rfl rfl (by simp [hpc, PoolPc.pinned])
        (.inl (by simp [hpc, PoolPc.owned]))
  | undoLatch id f old new =>
      simp only [hpc, runThread, Option.ite_none_right_eq_some, Option.some.injEq] at hs
      obtain ⟨hfree, rfl⟩ := hs
      exact threadStep_frame h hpc (by simp [PoolPc.pinned]) (by simp [PoolPc.pinned])
        (h.refs_lt f) (.inr (.inl hfree)) (by simp [PoolPc.latched, eq_comm]) (.inl rfl)
        (by simp [PoolPc.owned])
  | undoUnpin id f old new =>
      simp only [hpc, runThread, Option.some.injEq] at hs
      obtain rfl := hs
      have hpos := refCount_pos h (t := t) (f := f) (by simp [hpc, PoolPc.pinned])
      have hlt := h.refs_lt f
      have hu := unpin_refCount hpos
      have hmine : (s.frames f).latch = some t := h.latch t f (by simp [hpc, PoolPc.latched])
      exact threadStep_frame h hpc (by simp [PoolPc.pinned, eq_comm])
        (by simp [PoolPc.pinned, hu]; omega) (by omega) (.inl rfl)
        (by simp [PoolPc.latched, hmine, eq_comm]) (.inl rfl) (by simp [PoolPc.owned])
  | undoSetId id f old new =>
      simp only [hpc, runThread, Option.some.injEq] at hs
      obtain rfl := hs
      -- the victim's old id comes back
      have hmine : (s.frames f).latch = some t := h.latch t f (by simp [hpc, PoolPc.latched])
      exact threadStep_frame h hpc (by simp [PoolPc.pinned]) (by simp [PoolPc.pinned])
        (h.refs_lt f) (.inl rfl) (by simp [PoolPc.latched, hmine, eq_comm]) (.inr rfl)
        (by simp [PoolPc.owned])
  | undoClearIOInProgress id f new =>
      simp only [hpc, runThread, Option.some.injEq] at hs
      obtain rfl := hs
      have hmine : (s.frames f).latch = some t := h.latch t f (by simp [hpc, PoolPc.latched])
      exact threadStep_frame h hpc (by simp [PoolPc.pinned]) (by simp [PoolPc.pinned])
        (h.refs_lt f) (.inl rfl) (by simp [PoolPc.latched, hmine, eq_comm]) (.inl rfl)
        (by simp [PoolPc.owned])
  | undoUnlatch id f new =>
      simp only [hpc, runThread, Option.some.injEq] at hs
      obtain rfl := hs
      exact threadStep_frame h hpc (by simp [PoolPc.pinned]) (by simp [PoolPc.pinned])
        (h.refs_lt f) (.inr (.inr rfl)) (by simp [PoolPc.latched]) (.inl rfl)
        (by simp [PoolPc.owned])
  | signalLatch f =>
      simp only [hpc, runThread, Option.ite_none_right_eq_some, Option.some.injEq] at hs
      obtain ⟨hfree, rfl⟩ := hs
      exact threadStep_frame h hpc (by simp [PoolPc.pinned]) (by simp [PoolPc.pinned])
        (h.refs_lt f) (.inr (.inl hfree)) (by simp [PoolPc.latched, eq_comm]) (.inl rfl)
        (by simp [PoolPc.owned])
  | signalClear f =>
      simp only [hpc, runThread, Option.ite_none_right_eq_some, Option.some.injEq] at hs
      obtain ⟨-, rfl⟩ := hs
      have hmine : (s.frames f).latch = some t := h.latch t f (by simp [hpc, PoolPc.latched])
      exact threadStep_frame h hpc (by simp [PoolPc.pinned]) (by simp [PoolPc.pinned])
        (h.refs_lt f) (.inl rfl) (by simp [PoolPc.latched, hmine, eq_comm]) (.inl rfl)
        (by simp [PoolPc.owned])
  | signalUnlatch f =>
      simp only [hpc, runThread, Option.some.injEq] at hs
      obtain rfl := hs
      exact threadStep_frame h hpc (by simp [PoolPc.pinned]) (by simp [PoolPc.pinned])
        (h.refs_lt f) (.inr (.inr rfl)) (by simp [PoolPc.latched]) (.inl rfl)
        (by simp [PoolPc.owned])

/-! ## The invariant along a run -/

theorem balanced_init : Balanced init where
  refs _ := HasTotal.zero
  refs_lt _ := by show 0 < 2 ^ 32; omega
  latch _ _ h := by simp [init, PoolPc.latched] at h

theorem poolInv_init : PoolInv init where
  toBalanced := balanced_init
  ids _ _ _ h := by simp [init, PoolThread.Claims, PoolPc.owned] at h

theorem threadStep_step {n : Nat} {s s' : Pool} {a : PoolAction} (h : Balanced s)
    (hc : s.NoPinOverflow a) (hs : s.step n a = some s') : ThreadStep s s' a.thread := by
  cases a with
  | pin t id =>
      simp only [step, Option.ite_none_right_eq_some, Option.some.injEq] at hs
      obtain ⟨⟨hidle, -⟩, rfl⟩ := hs
      exact threadStep_goto h rfl rfl (by simp [PoolAction.thread, hidle, PoolPc.pinned])
        (by simp [PoolPc.latched]) (by simp [PoolPc.owned])
  | reserve t tbl =>
      simp only [step, Option.ite_none_right_eq_some, Option.some.injEq] at hs
      obtain ⟨⟨hidle, -⟩, rfl⟩ := hs
      exact threadStep_goto h rfl rfl (by simp [PoolAction.thread, hidle, PoolPc.pinned])
        (by simp [PoolPc.latched]) (by simp [PoolPc.owned])
  | unpin t id f =>
      simp only [step, Option.ite_none_right_eq_some, Option.some.injEq] at hs
      obtain ⟨⟨hidle, hheld⟩, rfl⟩ := hs
      exact threadStep_unpin h hidle hheld rfl rfl
  | signal t f =>
      simp only [step, Option.ite_none_right_eq_some, Option.some.injEq] at hs
      obtain ⟨⟨hidle, -⟩, rfl⟩ := hs
      exact threadStep_goto h rfl rfl (by simp [PoolAction.thread, hidle, PoolPc.pinned])
        (by simp [PoolPc.latched]) (by simp [PoolPc.owned])
  | run t => exact threadStep_run h hc hs

theorem poolInv_step {n : Nat} {s s' : Pool} {a : PoolAction} (h : PoolInv s)
    (hc : s.SetsIdUnpinned a) (hs : s.step n a = some s') : PoolInv s' := by
  refine h.of_threadStep (threadStep_step h.toBalanced hc.noPinOverflow hs) ?_
  cases a with
  | run t => exact hc.1
  | pin t id =>
      simp only [step, Option.ite_none_right_eq_some] at hs
      simp [PoolAction.thread, hs.1.1, PoolPc.overwrites]
  | reserve t tbl =>
      simp only [step, Option.ite_none_right_eq_some] at hs
      simp [PoolAction.thread, hs.1.1, PoolPc.overwrites]
  | unpin t id f =>
      simp only [step, Option.ite_none_right_eq_some] at hs
      simp [PoolAction.thread, hs.1.1, PoolPc.overwrites]
  | signal t f =>
      simp only [step, Option.ite_none_right_eq_some] at hs
      simp [PoolAction.thread, hs.1.1, PoolPc.overwrites]

theorem poolInv_reachable {n : Nat} {s : Pool}
    (hs : (poolSystem n).ReachableBy SetsIdUnpinned s) : PoolInv s :=
  hs.invariant (fun _ h => by rw [show _ = init from h]; exact poolInv_init)
    fun _ _ _ h hc hst => poolInv_step h hc hst

/-- Every frame that `Pin` or `Reserve` returned, and that was not given back,
carries the page that was asked for. -/
def UsePageCorrect (s : Pool) : Prop :=
  ∀ t id f, (id, f) ∈ (s.threads t).held → (s.frames f).id = id

/-- A pinned frame keeps its page until it is unpinned. -/
theorem usePageCorrect {n : Nat} {s : Pool}
    (hs : (poolSystem n).ReachableBy SetsIdUnpinned s) : s.UsePageCorrect :=
  fun t id f hheld => (poolInv_reachable hs).ids t id f (.inl hheld)

/-- The schedule on which the pins of two threads meet in one frame. -/
theorem usePageCorrect_pinTwice : ∃ s, (poolSystem bufferPoolPageNum).ReachableBy SetsIdUnpinned s ∧
    (⟨1, 1⟩, 0) ∈ (s.threads 0).held ∧ (⟨1, 1⟩, 0) ∈ (s.threads 1).held ∧ s.UsePageCorrect := by
  have hrun : ((poolSystem bufferPoolPageNum).exec SetsIdUnpinned init
      (.pin 0 ⟨1, 1⟩ :: List.replicate 14 (.run 0) ++ .pin 1
        ⟨1, 1⟩ :: List.replicate 3 (.run 1))).map
      (fun s => ((s.threads 0).held, (s.threads 1).held)) =
        some ([(⟨1, 1⟩, 0)], [(⟨1, 1⟩, 0)]) := by
    decide
  obtain ⟨s, hexec, hheld⟩ := Option.map_eq_some_iff.mp hrun
  obtain ⟨h0, h1⟩ := Prod.mk.inj hheld
  have hs : (poolSystem bufferPoolPageNum).ReachableBy SetsIdUnpinned s :=
    ⟨init, rfl, TSys.Steps.of_exec _ hexec⟩
  exact ⟨s, hs, by simp [h0], by simp [h1], usePageCorrect hs⟩

/-! ## The race between a victim search and a visit -/

section Race

variable {n : Nat} {s : Pool} {t u : ThreadId} {id id' : PageIdentifier} {f : Nat}

/-- Thread `t` at `pc`, with frame `f` being `x`. -/
def frameAt (s : Pool) (t : ThreadId) (f : Nat) (x : Frame) (pc : PoolPc) : Pool :=
  (s.setFrame f x).goto t pc

section FrameAt

variable (s : Pool) (t : ThreadId) (f : Nat) (x y : Frame) (pc pc' : PoolPc)

theorem frameAt_frames : (s.frameAt t f x pc).frames f = x := by simp [frameAt, goto, setFrame]

theorem goto_frameAt : (s.frameAt t f x pc).goto t pc' = s.frameAt t f x pc' := by
  simp [frameAt, goto, setFrame]

theorem setFrame_goto_frameAt :
    ((s.frameAt t f x pc).setFrame f y).goto t pc' = s.frameAt t f y pc' := by
  simp [frameAt, goto, setFrame]

theorem step_run_frameAt :
    (s.frameAt t f x pc).step n (.run t) = (s.frameAt t f x pc).runThread n t pc := by
  simp [step, frameAt, goto]

end FrameAt

/-- `Pin` of a page that is not in the pool takes the evictable frame `f` under
the sweep head and stands before `SetId`. -/
theorem steps_findVictim (id id' : PageIdentifier) (hidle : (s.threads t).pc = .idle)
    (hid : id.pid ≠ 0 ∧ id.pid ≠ 2 ^ 32 - 1) (hmap : s.map id = none) (hf : s.sweepHead % n = f)
    (hframe : s.frames f = ⟨id', 0, false, false, none⟩) :
    (poolSystem n).Steps TSys.Always s
      ({ s with sweepHead := u32 (s.sweepHead + 1) }.frameAt t f ⟨id', 0, false, false, some t⟩
        (.setId ⟨id, true⟩ f id')) := by
  have henter : (poolSystem n).Steps TSys.Always s
      ({ s with sweepHead := u32 (s.sweepHead + 1) }.goto t (.tryLatch ⟨id, true⟩ f)) := by
    have hpin : s.step n (.pin t id) = some (s.goto t (.lookup id)) := if_pos ⟨hidle, hid⟩
    refine TSys.Steps.of_exec [.pin t id, .run t, .run t] ?_
    simp only [TSys.exec, TSys.Always, poolSystem, hpin, if_true, Option.bind_some]
    simp [step, runThread, goto, hmap, hf]
  refine henter.trans (TSys.Steps.of_exec (List.replicate 5 (.run t)) ?_)
  have hlatch : ({ s with sweepHead := u32 (s.sweepHead + 1) }.goto t
      (.tryLatch ⟨id, true⟩ f)).step n (.run t) =
      some ({ s with sweepHead := u32 (s.sweepHead + 1) }.frameAt t f
        ⟨id', 0, false, false, some t⟩ (.checkPinned ⟨id, true⟩ f)) := by
    simp [step, goto, runThread, hframe, frameAt, setFrame, Frame.setLatch]
  simp [TSys.exec, TSys.Always, poolSystem, List.replicate, hlatch, step_run_frameAt, runThread,
    frameAt_frames, goto_frameAt]

/-- From there `Pin` returns the frame. -/
theorem steps_takeVictim (id id' : PageIdentifier) (hmap : s.map id = none)
    (hold : s.map id' = none) (hne : id ≠ id') :
    (poolSystem n).Steps TSys.Always
      (s.frameAt t f ⟨id', 0, false, false, some t⟩ (.setId ⟨id, true⟩ f id'))
      ({ s with map := update s.map id (some f), reads := f :: s.reads }.setFrame f
        ⟨id, 1, false, true, none⟩ |>.give t id f) := by
  have htake : (poolSystem n).Steps TSys.Always
      (s.frameAt t f ⟨id', 0, false, false, some t⟩ (.setId ⟨id, true⟩ f id'))
      (s.frameAt t f ⟨id, 1, false, true, none⟩ (.put ⟨id, true⟩ f id')) := by
    refine TSys.Steps.of_exec (List.replicate 4 (.run t)) ?_
    simp [TSys.exec, TSys.Always, poolSystem, List.replicate, step_run_frameAt, runThread,
      frameAt_frames, setFrame_goto_frameAt, Frame.setLatch, Frame.setId, Frame.pin,
      Frame.setIOInProgress, u32]
  refine htake.trans (TSys.Steps.of_exec (List.replicate 3 (.run t)) ?_)
  simp [TSys.exec, TSys.Always, poolSystem, List.replicate, step, runThread, frameAt, goto,
    setFrame, putMap, hmap, deleteMap, hold, hne.symm, give]

/-- Between the two a visitor gets the frame with its old page, and `SetId`
overwrites it. -/
theorem steps_race (id id' : PageIdentifier) (htu : t ≠ u) (hu : (s.threads u).pc = .idle)
    (hid' : id'.pid ≠ 0 ∧ id'.pid ≠ 2 ^ 32 - 1) (hmap : s.map id' = some f) :
    (poolSystem n).Steps TSys.Always
      (s.frameAt t f ⟨id', 0, false, false, some t⟩ (.setId ⟨id, true⟩ f id'))
      ((s.give u id' f).frameAt t f ⟨id, 1, false, false, some t⟩
        (.pinVictim ⟨id, true⟩ f id')) := by
  have hpin : (s.frameAt t f ⟨id', 0, false, false, some t⟩ (.setId ⟨id, true⟩ f id')).step n
      (.pin u id') = some ((s.frameAt t f ⟨id', 0, false, false, some t⟩
        (.setId ⟨id, true⟩ f id')).goto u (.lookup id')) :=
    if_pos ⟨by simpa [frameAt, goto, setFrame, htu.symm] using hu, hid'⟩
  refine TSys.Steps.of_exec [.pin u id', .run u, .run u, .run u, .run t] ?_
  simp only [TSys.exec, TSys.Always, poolSystem, hpin, if_true, Option.bind_some]
  simp [step, runThread, frameAt, goto, setFrame, hmap, htu, htu.symm, Frame.pin, u32, give,
    Frame.setId, update_comm htu]

/-- `k` pages were pinned, and the sweep stands before frame `k`; the first of
them is held by thread 0, its read still under way. -/
structure Filled (k : Nat) (s : Pool) : Prop where
  sweepHead : s.sweepHead = k
  fresh : ∀ f, k ≤ f → s.frames f = ⟨⟨0, 0⟩, 0, false, false, none⟩
  first : s.frames 0 = ⟨⟨1, 1⟩, 1, false, true, none⟩
  map : ∀ id : PageIdentifier, id.pid = 0 ∨ k < id.pid → s.map id = none
  mapFirst : s.map ⟨1, 1⟩ = some 0
  idle : ∀ t, (s.threads t).pc = .idle
  held : (⟨1, 1⟩, 0) ∈ (s.threads 0).held
  reads : 0 ∈ s.reads

theorem Filled.pin {k : Nat} (h : Filled k s) (hk : 0 < k) (hn : k < n)
    (hlt : k + 1 < 2 ^ 32 - 1) :
    ∃ s', (poolSystem n).Steps TSys.Always s s' ∧ Filled (k + 1) s' ∧ (s'.frames k).refCount = 1 ∧
      ∀ f, f ≠ k → s'.frames f = s.frames f := by
  have hfind := steps_findVictim (n := n) ⟨1, k + 1⟩ ⟨0, 0⟩ (h.idle 0) ⟨by simp, by simp; omega⟩
    (h.map _ (.inr (by simp))) (by rw [h.sweepHead, Nat.mod_eq_of_lt hn]) (h.fresh k le_rfl)
  have hhead : u32 (s.sweepHead + 1) = k + 1 := by
    rw [h.sweepHead]
    exact Nat.mod_eq_of_lt (by omega)
  have htake := steps_takeVictim (n := n) (t := 0) (f := k) ⟨1, k + 1⟩ ⟨0, 0⟩
    (s := { s with sweepHead := u32 (s.sweepHead + 1) }) (h.map _ (.inr (by simp)))
    (h.map _ (.inl rfl)) (by simp)
  refine ⟨_, hfind.trans htake, ⟨hhead, fun f hf => ?_, ?_, fun id hid => ?_, ?_, fun t => ?_, ?_,
    ?_⟩, ?_, fun f hf => ?_⟩
  · have hfk : f ≠ k := by omega
    simp [give, setFrame, hfk, h.fresh f (by omega)]
  · have hk0 : 0 ≠ k := by omega
    simp [give, setFrame, hk0, h.first]
  · have hne : id ≠ ⟨1, k + 1⟩ := by
      rintro rfl
      simp at hid
    simp [give, setFrame, hne, h.map id (hid.imp_right fun _ => by omega)]
  · have hne : (⟨1, 1⟩ : PageIdentifier) ≠ ⟨1, k + 1⟩ := by simp; omega
    simp [give, setFrame, hne, h.mapFirst]
  · by_cases ht : t = 0
    · simp [give, ht]
    · simp [give, setFrame, ht, h.idle t]
  · simp [give, setFrame, h.held]
  · simp [give, setFrame, h.reads]
  · simp [give, setFrame]
  · simp [give, setFrame, hf]

theorem filled_one : ∃ s', (poolSystem n).Steps TSys.Always init s' ∧ Filled 1 s' := by
  have hfind := steps_findVictim (s := init) (n := n) (t := 0) ⟨1, 1⟩ ⟨0, 0⟩ rfl
    ⟨by simp, by simp⟩ rfl (Nat.zero_mod n) rfl
  have htake := steps_takeVictim (n := n) (t := 0) (f := 0) ⟨1, 1⟩ ⟨0, 0⟩
    (s := { init with sweepHead := u32 (init.sweepHead + 1) }) rfl rfl (by simp)
  refine ⟨_, hfind.trans htake, rfl, fun f hf => ?_, ?_, fun id hid => ?_, ?_, fun t => ?_, ?_, ?_⟩
  · have hf0 : f ≠ 0 := by omega
    simp [give, setFrame, hf0, init]
  · simp [give, setFrame]
  · have hne : id ≠ ⟨1, 1⟩ := by
      rintro rfl
      simp at hid
    simp [give, setFrame, hne, init]
  · simp [give, setFrame]
  · by_cases ht : t = 0
    · simp [give, ht]
    · simp [give, setFrame, ht, init]
  · simp [give]
  · simp [give, setFrame]

/-- One thread fills the first frames. -/
theorem filled {k : Nat} (hk : 0 < k) (hkn : k ≤ n) (hlt : n < 2 ^ 32 - 1) :
    ∃ s', (poolSystem n).Steps TSys.Always init s' ∧ Filled k s' ∧ ∀ f < k,
      0 < (s'.frames f).refCount := by
  induction k with
  | zero => exact absurd hk (Nat.lt_irrefl 0)
  | succ k ih =>
      by_cases hzero : k = 0
      · subst hzero
        obtain ⟨s, hs, hone⟩ := filled_one (n := n)
        refine ⟨s, hs, hone, fun f hf => ?_⟩
        obtain rfl : f = 0 := by omega
        rw [hone.first]
        exact Nat.one_pos
      · obtain ⟨s, hs, hfill, hpinned⟩ := ih (by omega) (by omega)
        obtain ⟨s', hs', hfill', hnew, hrest⟩ := hfill.pin (n := n) (by omega) (by omega) (by omega)
        refine ⟨s', hs.trans hs', hfill', fun f hf => ?_⟩
        by_cases hfk : f = k
        · rw [hfk, hnew]
          exact Nat.one_pos
        · rw [hrest f hfk]
          exact hpinned f (by omega)

/-- The read of the first page completes and its thread unpins it. -/
theorem Filled.release {k : Nat} (h : Filled k s) :
    (poolSystem n).Steps TSys.Always s
      { s with frames := update s.frames 0 ⟨⟨1, 1⟩, 0, false, false, none⟩
               reads := s.reads.erase 0
               threads := update s.threads 0 ⟨.idle, (s.threads 0).held.erase (⟨1, 1⟩, 0)⟩ } := by
  have hsignal : s.step n (.signal 0 0) =
      some ({ s with reads := s.reads.erase 0 }.goto 0 (.signalLatch 0)) :=
    if_pos ⟨h.idle 0, h.reads⟩
  refine TSys.Steps.of_exec [.signal 0 0, .run 0, .run 0, .run 0, .unpin 0 ⟨1, 1⟩ 0] ?_
  simp only [TSys.exec, TSys.Always, poolSystem, hsignal, if_true, Option.bind_some]
  simp [step, runThread, goto, setFrame, h.first, h.held, Frame.setLatch, Frame.clearIOInProgress,
    Frame.unpin, u32Pred]

/-- After the pool is full, a thread evicts the first page while another visits
it: the frame that the visitor got carries the evictor's page. -/
theorem pinned_frame_overwritten :
    ¬ ∀ s, (poolSystem bufferPoolPageNum).Reachable s → s.UsePageCorrect := by
  intro hall
  obtain ⟨n, hn⟩ : ∃ n, n = bufferPoolPageNum := ⟨_, rfl⟩
  have hpos : 0 < n := by rw [hn]; decide
  have hlt : n + 1 < 2 ^ 32 - 1 := by rw [hn]; decide
  rw [← hn] at hall
  obtain ⟨s, hfill, hs, -⟩ := filled hpos (Nat.le_refl n) (by omega)
  have hrelease := hs.release (n := n)
  generalize hs₁ : ({ s with
      frames := update s.frames 0 ⟨⟨1, 1⟩, 0, false, false, none⟩
      reads := s.reads.erase 0
      threads := update s.threads 0 ⟨.idle, (s.threads 0).held.erase (⟨1, 1⟩, 0)⟩ } : Pool) = s₁
    at hrelease
  have hidle : ∀ t, (s₁.threads t).pc = .idle := by
    intro t
    by_cases ht : t = 0
    · simp [← hs₁, ht]
    · simp [← hs₁, ht, hs.idle t]
  -- the sweep is back at frame 0
  have hfind :=
    steps_findVictim (s := s₁) (n := n) (t := 1) (f := 0) ⟨1, n + 1⟩ ⟨1, 1⟩ (hidle 1)
      ⟨by simp, by simp; omega⟩
    (by rw [← hs₁]; exact hs.map _ (.inr (by simp)))
    (by rw [← hs₁]; simp [hs.sweepHead]) (by simp [← hs₁])
  have hrace := steps_race (n := n) (t := 1) (u := 2) (f := 0) ⟨1, n + 1⟩ ⟨1, 1⟩
    (s := { s₁ with sweepHead := u32 (s₁.sweepHead + 1) }) (by simp) (hidle 2) ⟨by simp, by simp⟩
    (by rw [← hs₁]; exact hs.mapFirst)
  have hreach := hall _ ⟨init, rfl, ((hfill.trans hrelease).trans hfind).trans hrace⟩
  have hid := hreach 2 ⟨1, 1⟩ 0 (by simp [frameAt, goto, setFrame, give])
  rw [frameAt_frames] at hid
  simp at hid
  omega

end Race

end Pool

end Db7
