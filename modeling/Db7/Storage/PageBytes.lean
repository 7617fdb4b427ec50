import Db7.Storage.FrameHomes
import Db7.Lib.Bytes

/-!
# The bytes of the pages

The pool (`PoolUse`) with the bytes of its frames, the bytes of the pages on disk, and the bytes
last written to each page through the pool. A completed read copies a page from the disk, `Reserve`
clears its frame, and a thread that has pinned a page and waited for its read writes to it. `Unpin`
drops its `dirty` argument and `GetVictim` takes a frame over without writing it back, so nothing
changes the disk.

Pinned pages show their last bytes as long as every page that loses its frame is unmodified, no
frame changes its page under a pin, and no thread waits for a read before it has been announced
(`lastWritten`). A page that was written and then evicted comes back as it is on disk
(`written_page_lost`).
-/

namespace Db7

open Lib Function

/-- The pool, the bytes of its frames, the pages on disk, the bytes last written to each page, and
the page that each read under way is for. -/
structure PoolBytes where
  use : PoolUse
  data : Nat → Mem
  disk : PageIdentifier → Mem
  latest : PageIdentifier → Mem
  tasks : List (Nat × PageIdentifier)

/-- A step of the pool and its callers, or `WriteOffset` on a pinned page. -/
inductive PoolBytesAction
  | use (a : PoolUseAction)
  | write (t : ThreadId) (id : PageIdentifier) (f : Nat) (offset : Nat) (value : List Byte)

/-- The thread has the frame pinned for the page, and has waited for the read. -/
def PoolUse.Seen (u : PoolUse) (t : ThreadId) (p : PageIdentifier × Nat) : Prop :=
  (u.unwaited t).count p < (u.pool.threads t).held.count p

instance (u : PoolUse) (t : ThreadId) (p : PageIdentifier × Nat) : Decidable (u.Seen t p) :=
  inferInstanceAs (Decidable (_ < _))

/-- The frame on which the call has put its id, before it raises the flag of the read that is to
come or clears the page. -/
def PoolPc.unannounced : PoolPc → Option Nat
  | .pinVictim _ f _ | .setIOInProgress _ f _ => some f
  | .unlatch call f _ | .put call f _ | .delete call f _ => if call.isIO then none else some f
  | _ => none

/-- A call that has put its id on a frame, or is to fill it, has raised the flag or not announced
itself. -/
theorem PoolPc.raises_or_unannounced {pc : PoolPc} {f : Nat}
    (h : (∃ id, pc.role.fills = some (f, id)) ∨ ∃ old, pc.role.hides = some (f, old)) :
    pc.role.raises = some f ∨ pc.unannounced = some f := by
  cases pc with
  | pinVictim call g old | setIOInProgress call g old =>
      rcases h with ⟨id, h⟩ | ⟨old', h⟩
      · cases h
      · cases h
        exact .inr rfl
  | unlatch call g old | put call g old | delete call g old =>
      have hg : g = f := by simpa [role] using h
      subst hg
      by_cases hio : call.isIO = true
      · exact .inl (if_pos hio)
      · exact .inr (if_neg hio)
  | enqueue call g | undoLatch id g old new | undoUnpin id g old new | undoSetId id g old new =>
      have hg : g = f := by simpa [role] using h
      subst hg
      exact .inl rfl
  | _ => rcases h with ⟨id, h⟩ | ⟨old, h⟩ <;> cases h

theorem PoolPc.carries_of_owned {pc : PoolPc} {f : Nat} {id : PageIdentifier}
    (h : pc.owned = some (id, f)) :
    pc.role.carries = some (f, id) := by
  cases pc <;> simp_all [owned, role]

namespace PoolUse

/-- Frames in somebody's hands carry the page that was asked for. -/
structure HeldPages (u : PoolUse) : Prop where
  ids : ∀ t id f, (id, f) ∈ (u.pool.threads t).held → (u.pool.frames f).id = id
  pid : ∀ t q, q ∈ (u.pool.threads t).held → q.1.pid ≠ 0

/-- A frame whose id is overwritten is in nobody's hands. -/
def OverwritesUnheld (u : PoolUse) (a : PoolAction) : Prop :=
  ∀ f ∈ (u.pool.threads a.thread).pc.overwrites, ∀ v id, (id, f) ∉ (u.pool.threads v).held

variable {n : Nat} {u u' : PoolUse} {a : PoolAction} {v : ThreadId} {q : PageIdentifier × Nat}

theorem Seen.held (h : u.Seen v q) : q ∈ (u.pool.threads v).held :=
  List.count_pos_iff.mp (Nat.zero_lt_of_lt h)

/-- What a step does to the pins of its thread: it returns pins that are to be waited for, gives one
back, or returns a reserved page. -/
inductive PinEffect (u u' : PoolUse) (t : ThreadId) : Prop
  | returns (new : List (PageIdentifier × Nat)) (hpid : ∀ q ∈ new, q.1.pid ≠ 0)
      (hunwaited : u'.unwaited t = new ++ u.unwaited t)
      (hheld : (u'.pool.threads t).held = new ++ (u.pool.threads t).held)
  | unpin (q : PageIdentifier × Nat) (hunwaited : u'.unwaited t = u.unwaited t)
      (hheld : (u'.pool.threads t).held = (u.pool.threads t).held.erase q)
  | reserve (call : VictimCall) (f : Nat) (old : PageIdentifier)
    (hpc : (u.pool.threads t).pc = .delete call f old)
      (hio : call.isIO = false) (hunwaited : u'.unwaited t = u.unwaited t)
      (hheld : (u'.pool.threads t).held = (call.id, f) :: (u.pool.threads t).held)

theorem pinEffect_call (hs : u.step n (.call a) = some u') (hok : (u.pool.threads a.thread).pc.Ok) :
    PinEffect u u' a.thread := by
  cases a with
  | run t =>
      simp only [step, Option.map_eq_some_iff] at hs
      obtain ⟨s', hs, rfl⟩ := hs
      change (u.pool.threads t).pc.Ok at hok
      rcases Pool.held_run (n := n) hs with hheld | ⟨hnone, call, f, old, hpc, hio, hheld⟩
      · refine .returns _ (fun q hq => ?_) (update_self ..) hheld
        generalize (u.pool.threads t).pc = pc at hq hok
        cases pc with
        | visitCheck id f retry =>
            simp only [Pool.returnsPin] at hq
            split at hq <;> simp only [Option.toList_some, Option.toList_none, List.mem_singleton,
              List.not_mem_nil] at hq
            rw [hq]
            exact hok
        | enqueue call f =>
            simp only [Pool.returnsPin, Option.toList_some, List.mem_singleton] at hq
            rw [hq]
            exact hok.1
        | _ => cases hq
      · refine .reserve call f old hpc hio ?_ hheld
        show update u.unwaited t _ t = u.unwaited t
        rw [update_self, hnone]
        rfl
  | unpin t id f =>
      simp only [step, Pool.step, Option.ite_none_right_eq_some, Option.map_eq_some_iff] at hs
      obtain ⟨-, s', ⟨-, hs⟩, rfl⟩ := hs
      cases hs
      exact .unpin (id, f) rfl (by simp [PoolAction.thread])
  | pin | reserve | signal =>
      simp only [step, Pool.step, Option.ite_none_right_eq_some, Option.map_eq_some_iff] at hs
      obtain ⟨s', ⟨-, hs⟩, rfl⟩ := hs
      cases hs
      exact .returns [] (by simp) rfl (by simp [PoolAction.thread, Pool.goto])

theorem PinEffect.seen {t : ThreadId} (h : PinEffect u u' t) (hseen : u'.Seen t q) :
    u.Seen t q ∨ ∃ call f old, (u.pool.threads t).pc = .delete call f old ∧ call.isIO = false ∧
      q = (call.id, f) := by
  unfold Seen at hseen ⊢
  cases h with
  | returns new hpid hunwaited hheld =>
      rw [hunwaited, hheld, List.count_append, List.count_append] at hseen
      exact .inl (by omega)
  | unpin p hunwaited hheld =>
      rw [hunwaited, hheld] at hseen
      have hle := (List.erase_sublist (a := p) (l := (u.pool.threads t).held)).count_le q
      exact .inl (by omega)
  | reserve call f old hpc hio hunwaited hheld =>
      rw [hunwaited, hheld, List.count_cons] at hseen
      by_cases hq : q = (call.id, f)
      · exact .inr ⟨call, f, old, hpc, hio, hq⟩
      · rw [if_neg (by simpa using Ne.symm hq)] at hseen
        exact .inl hseen

theorem PinEffect.held {t : ThreadId} (h : PinEffect u u' t) (hok : (u.pool.threads t).pc.Ok)
    (hq : q ∈ (u'.pool.threads t).held) : q ∈ (u.pool.threads t).held ∨ q.1.pid ≠ 0 := by
  cases h with
  | returns new hpid hunwaited hheld =>
      rw [hheld, List.mem_append] at hq
      exact hq.symm.imp_right (hpid q)
  | unpin p hunwaited hheld =>
      rw [hheld] at hq
      exact .inl (List.mem_of_mem_erase hq)
  | reserve call f old hpc hio hunwaited hheld =>
      rw [hheld, List.mem_cons] at hq
      rw [hpc] at hok
      refine hq.symm.imp_right fun heq => ?_
      rw [heq]
      exact hok

/-- The pins of the other threads stay. -/
theorem others_call (hs : u.step n (.call a) = some u') (hone : u.OneClaim)
    (hc : u.pool.NoPinOverflow a)
    (hv : v ≠ a.thread) : u'.unwaited v = u.unwaited v ∧ u'.pool.threads v = u.pool.threads v := by
  refine ⟨?_, (Pool.threadStep_step hone.balanced hc (pool_step hs)).others v hv⟩
  cases a with
  | run t =>
      simp only [step, Option.map_eq_some_iff] at hs
      obtain ⟨s', -, rfl⟩ := hs
      exact update_of_ne hv ..
  | unpin t id f =>
      simp only [step, Option.ite_none_right_eq_some, Option.map_eq_some_iff] at hs
      obtain ⟨-, s', -, rfl⟩ := hs
      rfl
  | pin | reserve | signal =>
      simp only [step, Option.map_eq_some_iff] at hs
      obtain ⟨s', -, rfl⟩ := hs
      rfl

theorem seen_call (hs : u.step n (.call a) = some u') (hone : u.OneClaim)
    (hc : u.pool.NoPinOverflow a) (hseen : u'.Seen v q) : u.Seen v q ∨
      ∃ call f old, (u.pool.threads a.thread).pc = .delete call f old ∧ call.isIO = false ∧
        q = (call.id, f) := by
  by_cases hv : v = a.thread
  · rw [hv] at hseen ⊢
    exact (pinEffect_call hs (hone.ok _)).seen hseen
  · obtain ⟨hunwaited, hthreads⟩ := others_call hs hone hc hv
    unfold Seen at hseen ⊢
    rw [hunwaited, hthreads] at hseen
    exact .inl hseen

theorem HeldPages.call {home : Nat → PageIdentifier} (h : u.HeldPages)
    (hs : u.step n (.call a) = some u')
    (hone : u.OneClaim) (hhomes : Homes home u.pool) (hc : u.pool.NoPinOverflow a)
    (hunheld : u.OverwritesUnheld a) :
    u'.HeldPages := by
  have hstep := Pool.threadStep_step hone.balanced hc (pool_step hs)
  have hstays : ∀ v id f, (id, f) ∈ (u.pool.threads v).held → (u'.pool.frames f).id = id := by
    intro v id f hheld
    rcases hstep.ids f with hsame | hover
    · rw [hsame]
      exact h.ids v id f hheld
    · exact absurd hheld (hunheld f hover v id)
  constructor
  · intro v id f hheld
    by_cases hv : v = a.thread
    · rw [hv] at hheld
      rcases hstep.claims id f (.inl hheld) with (hold | howned) | hid
      · exact hstays _ id f hold
      · rcases hstep.ids f with hsame | hover
        · rw [hsame]
          exact hhomes.carried _ f id (PoolPc.carries_of_owned howned)
        · rw [(Pool.latched_of_overwrites hover).2] at howned
          cases howned
      · exact hid
    · rw [hstep.others v hv] at hheld
      exact hstays v id f hheld
  · intro v q hq
    by_cases hv : v = a.thread
    · rw [hv] at hq
      exact ((pinEffect_call hs (hone.ok _)).held (hone.ok _) hq).elim (h.pid _ q) id
    · rw [(others_call hs hone hc hv).2] at hq
      exact h.pid v q hq

end PoolUse

/-- Only `Enqueue` and the end of a read change the reads. -/
theorem Pool.Effect.reads_eq {s s' : Pool} {pc pc' : PoolPc} (h : Effect s s' pc pc')
    (hidle : pc ≠ .idle) (henqueue : ∀ call f, pc ≠ .enqueue call f) : s'.reads = s.reads := by
  cases h with
  | enqueue call f hpc => exact absurd hpc (henqueue call f)
  | signal f hpc => exact absurd hpc hidle
  | quiet | take | release | readId | setId | raise | publish | remove | restore | clear =>
      assumption

/-- The last step of a `Pin` that reads. -/
theorem Pool.Effect.of_enqueue {s s' : Pool} {call : VictimCall} {f : Nat}
    (h : Effect s s' (.enqueue call f) .idle) :
    s'.ids = s.ids ∧ s'.map = s.map ∧ s'.reads = f :: s.reads := by
  cases h with
  | enqueue call' f' hpc hpc' hids hraised hmap hreads =>
      cases hpc
      exact ⟨hids, hmap, hreads⟩
  | quiet hrole => cases congrArg Role.takes hrole
  | take f' hrole => cases congrArg Role.takes hrole
  | release f' hrole => cases congrArg Role.fills hrole
  | clear f' hpc => rcases hpc with ⟨id, new, hpc⟩ | hpc <;> cases hpc
  | readId | setId | raise | publish | remove | restore | signal => contradiction

/-- The last step of a `Reserve`. -/
theorem Pool.Effect.of_delete {s s' : Pool} {call : VictimCall} {f : Nat} {old : PageIdentifier}
    (h : Effect s s' (.delete call f old) .idle) : s'.ids = s.ids ∧
      (s'.map = if s.map old = some f then update s.map old none else s.map) ∧
        s'.reads = s.reads := by
  cases h with
  | remove call' f' old' hpc hpc' hids hraised hmap hreads =>
      cases hpc
      exact ⟨hids, hmap, hreads⟩
  | quiet hrole => cases congrArg Role.takes hrole
  | take f' hrole => cases congrArg Role.takes hrole
  | release f' hrole => cases congrArg Role.fills hrole
  | clear f' hpc => rcases hpc with ⟨id, new, hpc⟩ | hpc <;> cases hpc
  | readId | setId | raise | publish | enqueue | restore | signal => contradiction

namespace PoolBytes

/-- `memset` to zero. -/
def zeroPage : Mem := fun _ => byte 0

/-- The bytes that a page is left with. -/
def setPage (p : PoolBytes) (id : PageIdentifier) (f : Nat) (bytes : Mem) : PoolBytes :=
  { p with data := update p.data f bytes, latest := update p.latest id bytes }

/-- A read copies the page from the disk. -/
def readPage (p : PoolBytes) (f : Nat) : PoolBytes :=
  match p.tasks.lookup f with
  | none => p
  | some id => { p with data := update p.data f (p.disk id), tasks := p.tasks.erase (f, id) }

/-- What the next step of a call does to bytes and reads: `Pin` queues a read, `Reserve` clears its
page before it returns it. -/
def runPage (p : PoolBytes) : PoolPc → PoolBytes
  | .enqueue call f => { p with tasks := (f, call.id) :: p.tasks }
  | .delete call f _ => if call.isIO then p else p.setPage call.id f zeroPage
  | _ => p

/-- What a step of the pool does to bytes and reads. -/
def touch (p : PoolBytes) : PoolUseAction → PoolBytes
  | .call (.run t) => p.runPage (p.use.pool.threads t).pc
  | .call (.signal _ f) => p.readPage f
  | _ => p

/-- A thread writes to the pages that it has pinned and waited for. -/
def step (n : Nat) (p : PoolBytes) : PoolBytesAction → Option PoolBytes
  | .use a => (p.use.step n a).map fun u => { p.touch a with use := u }
  | .write t id f offset value =>
      if (p.use.pool.threads t).pc = .idle ∧ p.use.Seen t (id, f) then
        some (p.setPage id f ((p.data f).write offset value))
      else none

/-- The pool as its constructor leaves it, with the pages that are on disk. -/
structure Initial (p : PoolBytes) : Prop where
  use : p.use = PoolUse.init
  latest : p.latest = p.disk
  tasks : p.tasks = []

def system (n : Nat) : TSys PoolBytes PoolBytesAction := ⟨Initial, step n⟩

/-- No frame changes its page under a pin, a page that loses its frame has not been written since
it was last on disk, and no wait for a read comes before the read is announced. -/
def Kept (p : PoolBytes) : PoolBytesAction → Prop
  | .use (.call a) => p.use.pool.NoPinOverflow a ∧ p.use.OverwritesUnheld a ∧
      ∀ call f old, (p.use.pool.threads a.thread).pc = .put call f old →
        p.use.pool.map call.id = none →
        p.latest old = p.disk old
  | .use (.wait _ _ f) => ∀ v, (p.use.pool.threads v).pc.unannounced ≠ some f
  | .write .. => True

/-- Pinned pages show the bytes last written to them. -/
def LastWritten (p : PoolBytes) : Prop := ∀ t id f, p.use.Seen t (id, f) → p.data f = p.latest id

/-! ## What holds along a run -/

/-- A read into the frame is to come, or under way. -/
def Unfilled (u : PoolUse) (f : Nat) : Prop :=
  f ∈ u.pool.reads ∨ ∃ t id, (u.pool.threads t).pc.role.fills = some (f, id)

/-- The frame does not show its page: a claim has put its own id over it, or it is unfilled. -/
def Taken (u : PoolUse) (f : Nat) : Prop :=
  Unfilled u f ∨ ∃ t old, (u.pool.threads t).pc.role.hides = some (f, old)

/-- Frames hold the last bytes of the pages whose homes they are, once these have been read; the
other pages, and those that are to be read, are on disk as they were last written. -/
structure Backed (home : Nat → PageIdentifier) (p : PoolBytes) : Prop where
  reads : p.use.pool.reads = p.tasks.map Prod.fst
  tasks : ∀ f id, (f, id) ∈ p.tasks → home f = id
  unfilled : ∀ f, Unfilled p.use f → p.latest (home f) = p.disk (home f)
  filled : ∀ f, (home f).pid ≠ 0 → ¬Unfilled p.use f → p.data f = p.latest (home f)
  away : ∀ id, (∀ f, home f ≠ id) → p.latest id = p.disk id
  held : p.use.HeldPages
  seen : ∀ t id f, p.use.Seen t (id, f) → ¬Taken p.use f

/-- A frame that a thread sees is the home of the page that the thread asked for. -/
theorem Backed.home_of_seen {home : Nat → PageIdentifier} {p : PoolBytes} (h : Backed home p)
    (hhomes : PoolUse.Homes home p.use.pool) {t : ThreadId} {id : PageIdentifier} {f : Nat}
    (hseen : p.use.Seen t (id, f)) : home f = id := by
  rw [hhomes.shown f fun v old hv => h.seen t id f hseen (.inr ⟨v, old, hv⟩)]
  exact h.held.ids t id f hseen.held

/-- The ids and the homes of the pool, and its bytes. -/
structure Inv (p : PoolBytes) : Prop where
  oneClaim : p.use.OneClaim
  backed : ∃ home, PoolUse.Homes home p.use.pool ∧ Backed home p

section Steps

variable {n : Nat} {p : PoolBytes} {u' : PoolUse} {t : ThreadId} {home : Nat → PageIdentifier}

theorem unfilled_iff {u : PoolUse} (hothers : ∀ v, v ≠ t → u'.pool.threads v = u.pool.threads v)
    (hreads : u'.pool.reads = u.pool.reads)
    (hfills : (u'.pool.threads t).pc.role.fills = (u.pool.threads t).pc.role.fills) (f : Nat) :
    Unfilled u' f ↔ Unfilled u f := by
  have hsame : ∀ v, (u'.pool.threads v).pc.role.fills = (u.pool.threads v).pc.role.fills := by
    intro v
    by_cases hv : v = t
    · rw [hv]
      exact hfills
    · rw [hothers v hv]
  unfold Unfilled
  simp only [hreads, hsame]

/-- What a thread sees stays untaken when the step takes no frame. -/
theorem Backed.untaken (h : Backed home p)
    (hothers : ∀ v, v ≠ t → u'.pool.threads v = p.use.pool.threads v)
    (hhides : (u'.pool.threads t).pc.role.hides = none) {f : Nat}
    (hunfilled : Unfilled u' f → Taken p.use f) {v : ThreadId} {id : PageIdentifier}
    (hv : p.use.Seen v (id, f)) :
    ¬Taken u' f := by
  have hnot := h.seen v id f hv
  rintro (hf | ⟨w, old, hw⟩)
  · exact hnot (hunfilled hf)
  · by_cases hwt : w = t
    · subst hwt
      rw [hhides] at hw
      cases hw
    · rw [hothers w hwt] at hw
      exact hnot (.inr ⟨w, old, hw⟩)

/-- A step that leaves the bytes and the homes alone. -/
theorem Backed.keep (h : Backed home p)
    (hothers : ∀ v, v ≠ t → u'.pool.threads v = p.use.pool.threads v)
    (hreads : u'.pool.reads = p.use.pool.reads)
    (hfills : (u'.pool.threads t).pc.role.fills = (p.use.pool.threads t).pc.role.fills)
    (hhides : ∀ f old, (u'.pool.threads t).pc.role.hides = some (f, old) →
      (p.use.pool.threads t).pc.role.hides = some (f, old) ∨ ∀ v id, ¬p.use.Seen v (id, f))
    (hheld : u'.HeldPages)
    (hseen : ∀ v q, u'.Seen v q → p.use.Seen v q) : Backed home { p with use := u' } where
  reads := hreads.trans h.reads
  tasks := h.tasks
  unfilled f hf := h.unfilled f ((unfilled_iff hothers hreads hfills f).mp hf)
  filled f hpid hf := h.filled f hpid fun hc => hf ((unfilled_iff hothers hreads hfills f).mpr hc)
  away := h.away
  held := hheld
  seen v id f hv := by
    have hnot := h.seen v id f (hseen v _ hv)
    rintro (hunfilled | ⟨w, old, hw⟩)
    · exact hnot (.inl ((unfilled_iff hothers hreads hfills f).mp hunfilled))
    · by_cases hwt : w = t
      · subst hwt
        rcases hhides f old hw with hold | hunseen
        · exact hnot (.inr ⟨w, old, hold⟩)
        · exact hunseen v id (hseen v _ hv)
      · change (u'.pool.threads w).pc.role.hides = _ at hw
        rw [hothers w hwt] at hw
        exact hnot (.inr ⟨w, old, hw⟩)

/-- `Put`: the page that loses its frame is on disk as it was last written, and the new one is
too. -/
theorem Backed.publish (h : Backed home p) (hhomes : PoolUse.Homes home p.use.pool)
    (hone : p.use.OneClaim)
    (hothers : ∀ v, v ≠ t → u'.pool.threads v = p.use.pool.threads v) {call : VictimCall} {f : Nat}
    {old : PageIdentifier} (hpc : (p.use.pool.threads t).pc = .put call f old)
    (hpc' : (u'.pool.threads t).pc = .delete call f old) (hnone : p.use.pool.map call.id = none)
    (hreads : u'.pool.reads = p.use.pool.reads) (hunmodified : p.latest old = p.disk old)
    (hheld : u'.HeldPages)
    (hseen : ∀ v q, u'.Seen v q → p.use.Seen v q) :
    Backed (update home f call.id) { p with use := u' } := by
  have hold : home f = old := hhomes.hidden t f old (by rw [hpc]; rfl)
  have hread : f ∉ p.use.pool.reads := hone.not_read (t := t) (by rw [hpc]; rfl)
  have hpid : call.id.pid ≠ 0 := by
    have hok := hone.ok t
    rw [hpc] at hok
    exact hok
  have hfresh : ∀ g, home g ≠ call.id := by
    intro g hg
    have hmapped := hhomes.mapped g (by rw [hg]; exact hpid)
    rw [hg, hnone] at hmapped
    cases hmapped
  -- only the frame itself becomes unfilled
  have hunfilled : ∀ g, g ≠ f → (Unfilled u' g ↔ Unfilled p.use g) := by
    intro g hg
    unfold Unfilled
    rw [hreads]
    refine or_congr Iff.rfl ⟨fun ⟨v, id, hv⟩ => ⟨v, id, ?_⟩, fun ⟨v, id, hv⟩ => ⟨v, id, ?_⟩⟩
    · by_cases hvt : v = t
      · subst hvt
        rw [hpc'] at hv
        cases hv
        exact absurd rfl hg
      · rwa [hothers v hvt] at hv
    · by_cases hvt : v = t
      · subst hvt
        rw [hpc] at hv
        cases hv
      · rwa [hothers v hvt]
  have hfilling : Unfilled u' f := .inr ⟨t, call.id, by rw [hpc']; rfl⟩
  exact {
    reads := hreads.trans h.reads
    tasks := fun g id hg => by
      have hgf : g ≠ f := by
        rintro rfl
        apply hread
        rw [h.reads]
        exact List.mem_map_of_mem hg
      rw [update_of_ne hgf]
      exact h.tasks g id hg
    unfilled := fun g hg => by
      by_cases hgf : g = f
      · subst hgf
        rw [update_self]
        exact h.away call.id hfresh
      · rw [update_of_ne hgf]
        exact h.unfilled g ((hunfilled g hgf).mp hg)
    filled := fun g hpid' hg => by
      have hgf : g ≠ f := by
        rintro rfl
        exact hg hfilling
      rw [update_of_ne hgf] at hpid' ⊢
      exact h.filled g hpid' fun hc => hg ((hunfilled g hgf).mpr hc)
    away := fun id hid => by
      by_cases hid' : id = old
      · rw [hid']
        exact hunmodified
      · refine h.away id fun g hg => ?_
        by_cases hgf : g = f
        · exact hid' (by rw [← hg, hgf, hold])
        · exact hid g (by rw [update_of_ne hgf]; exact hg)
    held := hheld
    seen := fun v id g hv => by
      refine h.untaken hothers (by rw [hpc']; rfl) (fun hg => ?_) (hseen v _ hv)
      by_cases hgf : g = f
      · subst hgf
        exact .inr ⟨t, old, by rw [hpc]; rfl⟩
      · exact .inl ((hunfilled g hgf).mp hg) }

/-- A step of the pool that queues and completes no read and clears no page. -/
theorem Backed.of_effect (h : Backed home p) (hhomes : PoolUse.Homes home p.use.pool)
    (hone : p.use.OneClaim) (hothers : ∀ v, v ≠ t → u'.pool.threads v = p.use.pool.threads v)
    (heff : Pool.Effect p.use.pool u'.pool (p.use.pool.threads t).pc (u'.pool.threads t).pc)
    (hreads : u'.pool.reads = p.use.pool.reads)
    (hpin : ∀ call f old, (p.use.pool.threads t).pc = .delete call f old → call.isIO = true)
    (hunheld : ∀ f ∈ (p.use.pool.threads t).pc.overwrites, ∀ v id,
      (id, f) ∉ (p.use.pool.threads v).held)
    (hunmodified : ∀ call f old, (p.use.pool.threads t).pc = .put call f old →
      p.use.pool.map call.id = none →
      p.latest old = p.disk old)
    (hheld : u'.HeldPages)
    (hseen : ∀ v q, u'.Seen v q → p.use.Seen v q) :
    ∃ home', PoolUse.Homes home' u'.pool ∧ Backed home' { p with use := u' } := by
  have hkeep : (u'.pool.threads t).pc.role.fills = (p.use.pool.threads t).pc.role.fills →
      (u'.pool.threads t).pc.role.hides = (p.use.pool.threads t).pc.role.hides ∨
        (u'.pool.threads t).pc.role.hides = none → Backed home { p with use := u' } := by
    intro hfills hhides
    refine h.keep hothers hreads hfills (fun f old hf => ?_) hheld hseen
    rcases hhides with heq | hnone
    · exact .inl (heq ▸ hf)
    · rw [hnone] at hf
      cases hf
  cases heff with
  | quiet hrole hids hraised hmap _ =>
      exact ⟨home, hhomes.keep hothers hids hmap (by rw [hrole]) (by rw [hrole])
        (fun f id hv => hhomes.carried t f id (by rw [← hrole]; exact hv))
        (fun f id hv => hhomes.filled t f id (by rw [← hrole]; exact hv)),
          hkeep (by rw [hrole]) (.inl (by rw [hrole]))⟩
  | take g hrole hrole' hzero hlatched hids hraised hmap _ =>
      exact ⟨home, hhomes.keep hothers hids hmap (by rw [hrole, hrole']) (by rw [hrole, hrole'])
        (fun f id hv => by rw [hrole'] at hv; cases hv)
          (fun f id hv => by rw [hrole'] at hv; cases hv),
        hkeep (by rw [hrole, hrole']) (.inr (by rw [hrole']))⟩
  | release g hrole hrole' hids hraised hmap _ =>
      exact ⟨home, hhomes.keep hothers hids hmap (by rw [hrole, hrole']) (by rw [hrole, hrole'])
        (fun f id hv => by rw [hrole'] at hv; cases hv)
          (fun f id hv => by rw [hrole'] at hv; cases hv),
        hkeep (by rw [hrole, hrole']) (.inr (by rw [hrole']))⟩
  | readId call g hpc hpc' hids hraised hmap _ =>
      exact ⟨home, hhomes.keep hothers hids hmap (by rw [hpc, hpc']; rfl) (by rw [hpc, hpc']; rfl)
        (fun f id hv => by rw [hpc'] at hv; cases hv; rfl)
          (fun f id hv => by rw [hpc'] at hv; cases hv),
        hkeep (by rw [hpc, hpc']; rfl) (.inr (by rw [hpc']; rfl))⟩
  | setId call g old hpc hpc' hids hraised hmap _ =>
      refine ⟨home, hhomes.setId hone hothers hpc hpc' hids hmap,
        h.keep hothers hreads (by rw [hpc, hpc']; rfl) (fun f old' hf => .inr fun v id hv =>
          ?_) hheld hseen⟩
      -- nobody has the frame in hand
      rw [hpc'] at hf
      cases hf
      exact hunheld g (by rw [hpc]; rfl) v id hv.held
  | raise call g old hpc hpc' hids hraised hmap _ =>
      exact ⟨home, hhomes.keep hothers hids hmap (by rw [hpc, hpc']; rfl) (by rw [hpc, hpc']; rfl)
        (fun f id hv => hhomes.carried t f id (by rw [hpc]; rw [hpc'] at hv; exact hv))
        (fun f id hv => by rw [hpc'] at hv; cases hv),
          hkeep (by rw [hpc, hpc']; rfl) (.inl (by rw [hpc, hpc']; rfl))⟩
  | publish call g old hpc hpc' hnone hids hraised hmap _ =>
      exact ⟨update home g call.id, hhomes.publish hone hothers hpc hpc' hnone hids hmap,
        h.publish hhomes hone hothers hpc hpc' hnone hreads (hunmodified call g old hpc hnone) hheld
          hseen⟩
  | remove call g old hpc hpc' hids hraised hmap _ =>
      have hnext : (u'.pool.threads t).pc = .enqueue call g := by
        rcases hpc' with ⟨-, hpc'⟩ | ⟨hio, -⟩
        · exact hpc'
        · rw [hpin call g old hpc] at hio
          cases hio
      exact ⟨home, hhomes.remove hothers hpc hpc' hids hmap,
        hkeep (by rw [hpc, hnext]; rfl) (.inr (by rw [hnext]; rfl))⟩
  | enqueue call g hpc hpc' hids hraised hmap hgrown =>
      have hlength := congrArg List.length (hreads.symm.trans hgrown)
      simp at hlength
  | restore id g old new hpc hpc' hids hraised hmap _ =>
      exact ⟨home, hhomes.restore hone hothers hpc hpc' hids hmap,
        hkeep (by rw [hpc, hpc']; rfl) (.inr (by rw [hpc']; rfl))⟩
  | clear g hpc hrole' hids hraised hmap _ =>
      have hrole : (p.use.pool.threads t).pc.role.hides = none ∧
          (p.use.pool.threads t).pc.role.removes = none ∧
          (p.use.pool.threads t).pc.role.fills = none := by
        rcases hpc with ⟨id, new, hpc⟩ | hpc <;> rw [hpc] <;> exact ⟨rfl, rfl, rfl⟩
      exact ⟨home, hhomes.keep hothers hids hmap (by rw [hrole', hrole.1])
        (by rw [hrole', hrole.2.1])
        (fun f id hv => by rw [hrole'] at hv; cases hv)
          (fun f id hv => by rw [hrole'] at hv; cases hv),
        hkeep (by rw [hrole', hrole.2.2]) (.inr (by rw [hrole']))⟩
  | signal g hpc hpc' hmem hids hraised hmap herased =>
      have hlength := congrArg List.length (hreads.symm.trans herased)
      rw [List.length_erase_of_mem hmem] at hlength
      have hpos := List.length_pos_of_mem hmem
      omega

/-- `Enqueue`: the read is under way. -/
theorem Backed.enqueue (h : Backed home p) (hhomes : PoolUse.Homes home p.use.pool)
    (hothers : ∀ v, v ≠ t → u'.pool.threads v = p.use.pool.threads v) {call : VictimCall} {f : Nat}
    (hpc : (p.use.pool.threads t).pc = .enqueue call f) (hpc' : (u'.pool.threads t).pc = .idle)
    (hreads : u'.pool.reads = f :: p.use.pool.reads)
    (hheld : u'.HeldPages)
    (hseen : ∀ v q, u'.Seen v q → p.use.Seen v q) :
    Backed home { p with use := u', tasks := (f, call.id) :: p.tasks } := by
  have hunfilled : ∀ g, Unfilled u' g ↔ Unfilled p.use g := by
    intro g
    constructor
    · rintro (hmem | ⟨v, id, hv⟩)
      · rw [hreads, List.mem_cons] at hmem
        rcases hmem with rfl | hmem
        · exact .inr ⟨t, call.id, by rw [hpc]; rfl⟩
        · exact .inl hmem
      · by_cases hvt : v = t
        · subst hvt
          rw [hpc'] at hv
          cases hv
        · rw [hothers v hvt] at hv
          exact .inr ⟨v, id, hv⟩
    · rintro (hmem | ⟨v, id, hv⟩)
      · exact .inl (by rw [hreads]; exact List.mem_cons_of_mem _ hmem)
      · by_cases hvt : v = t
        · subst hvt
          rw [hpc] at hv
          cases hv
          exact .inl (by rw [hreads]; exact List.mem_cons_self)
        · exact .inr ⟨v, id, by rw [hothers v hvt]; exact hv⟩
  exact {
    reads := by
      show u'.pool.reads = f :: p.tasks.map Prod.fst
      rw [hreads, h.reads]
    tasks := fun g id hg => by
      rcases List.mem_cons.mp hg with heq | hg
      · cases heq
        exact hhomes.filled t f call.id (by rw [hpc]; rfl)
      · exact h.tasks g id hg
    unfilled := fun g hg => h.unfilled g ((hunfilled g).mp hg)
    filled := fun g hpid hg => h.filled g hpid fun hc => hg ((hunfilled g).mpr hc)
    away := h.away
    held := hheld
    seen := fun v id g hv =>
      h.untaken hothers (by rw [hpc']; rfl) (fun hg => .inl ((hunfilled g).mp hg)) (hseen v _ hv) }

/-- A read completes: the frame shows its page as it is on disk, which is as it was last written. -/
theorem Backed.signal (h : Backed home p) (hone : p.use.OneClaim)
    (hothers : ∀ v, v ≠ t → u'.pool.threads v = p.use.pool.threads v) {f : Nat}
    (hpc : (p.use.pool.threads t).pc = .idle) (hpc' : (u'.pool.threads t).pc = .signalLatch f)
    (hmem : f ∈ p.use.pool.reads) (hreads : u'.pool.reads = p.use.pool.reads.erase f)
    (hheld : u'.HeldPages)
    (hseen : ∀ v q, u'.Seen v q → p.use.Seen v q) :
    Backed home { p.readPage f with use := u' } := by
  obtain ⟨id, hlookup⟩ : ∃ id, p.tasks.lookup f = some id := by
    rw [h.reads, List.mem_map] at hmem
    obtain ⟨⟨g, id⟩, hpair, rfl⟩ := hmem
    rw [← Option.isSome_iff_exists, List.lookup_isSome_iff]
    exact ⟨_, hpair, by simp⟩
  obtain ⟨before, after, htasks, hbefore⟩ := List.lookup_eq_some_iff.mp hlookup
  have herase : p.tasks.erase (f, id) = before ++ after := by
    rw [htasks, List.erase_append_right _ fun hc => by simpa using hbefore _ hc,
      List.erase_cons_head]
  have hhome : home f = id := h.tasks f id (by rw [htasks]; simp)
  have hread :
      p.readPage f = { p with data := update p.data f (p.disk id), tasks := before ++ after } := by
    rw [readPage, hlookup, ← herase]
  -- no other read into the frame is to come
  have hunfilled : ∀ g, Unfilled u' g ↔ Unfilled p.use g ∧ g ≠ f := by
    obtain ⟨k, htotal, hk⟩ := hone.tokens f
    intro g
    constructor
    · rintro (hg | ⟨v, id', hv⟩)
      · rw [hreads] at hg
        refine ⟨.inl (List.mem_of_mem_erase hg), ?_⟩
        rintro rfl
        have hpos := List.count_pos_iff.mpr hg
        rw [List.count_erase_self] at hpos
        omega
      · by_cases hvt : v = t
        · subst hvt
          rw [hpc'] at hv
          cases hv
        · rw [hothers v hvt] at hv
          refine ⟨.inr ⟨v, id', hv⟩, ?_⟩
          rintro rfl
          exact hone.not_read (PoolPc.takes_of_fills hv) hmem
    · rintro ⟨hg | ⟨v, id', hv⟩, hgf⟩
      · exact .inl (by rw [hreads]; exact (List.mem_erase_of_ne hgf).mpr hg)
      · refine .inr ⟨v, id', ?_⟩
        have hvt : v ≠ t := by
          rintro rfl
          rw [hpc] at hv
          cases hv
        rw [hothers v hvt]
        exact hv
  rw [hread]
  exact {
    reads := by
      show u'.pool.reads = (before ++ after).map Prod.fst
      have hfirst : f ∉ before.map Prod.fst := by
        intro hc
        obtain ⟨q, hq, hqf⟩ := List.mem_map.mp hc
        have hne := hbefore q hq
        rw [hqf] at hne
        simp at hne
      rw [hreads, h.reads, htasks, List.map_append, List.map_cons, List.erase_append_right _ hfirst,
        List.erase_cons_head, List.map_append]
    tasks := fun g id' hg => by
      apply h.tasks g id'
      rw [htasks, List.mem_append, List.mem_cons]
      exact (List.mem_append.mp hg).imp_right .inr
    unfilled := fun g hg => h.unfilled g ((hunfilled g).mp hg).1
    filled := fun g hpid hg => by
      by_cases hgf : g = f
      · subst hgf
        show update p.data g (p.disk id) g = p.latest (home g)
        rw [update_self, h.unfilled g (.inl hmem), hhome]
      · show update p.data f (p.disk id) g = p.latest (home g)
        rw [update_of_ne hgf]
        exact h.filled g hpid fun hc => hg ((hunfilled g).mpr ⟨hc, hgf⟩)
    away := h.away
    held := hheld
    seen := fun v id' g hv =>
      h.untaken hothers (by rw [hpc']; rfl) (fun hg => .inl ((hunfilled g).mp hg).1)
        (hseen v _ hv) }

/-- A page is left with new bytes in its home, which is read. -/
theorem Backed.setPage (h : Backed home p) (hhomes : PoolUse.Homes home p.use.pool)
    {id : PageIdentifier} {f : Nat}
    (hpid : id.pid ≠ 0) (hhome : home f = id) (hreads : u'.pool.reads = p.use.pool.reads)
    (hunfilled : ∀ g, Unfilled u' g ↔ Unfilled p.use g ∧ g ≠ f)
    (hheld : u'.HeldPages)
    (hseen : ∀ v id g, u'.Seen v (id, g) → ¬Taken u' g) (bytes : Mem) :
    Backed home { p.setPage id f bytes with use := u' } := by
  -- a page with another home is another page
  have hother : ∀ g, g ≠ f → home g ≠ id := by
    intro g hgf hg
    refine hgf (hhomes.injective (hg.trans hhome.symm) fun hc => hpid ?_)
    rw [← hg, hc]
  exact {
    reads := hreads.trans h.reads
    tasks := h.tasks
    unfilled := fun g hg => by
      obtain ⟨hold, hgf⟩ := (hunfilled g).mp hg
      show update p.latest id bytes (home g) = p.disk (home g)
      rw [update_of_ne (hother g hgf)]
      exact h.unfilled g hold
    filled := fun g hpid' hg => by
      show update p.data f bytes g = update p.latest id bytes (home g)
      by_cases hgf : g = f
      · subst hgf
        rw [update_self, hhome, update_self]
      · rw [update_of_ne hgf, update_of_ne (hother g hgf)]
        exact h.filled g hpid' fun hc => hg ((hunfilled g).mpr ⟨hc, hgf⟩)
    away := fun id' hid => by
      have hne : id' ≠ id := fun hc => hid f (hhome.trans hc.symm)
      show update p.latest id bytes id' = p.disk id'
      rw [update_of_ne hne]
      exact h.away id' hid
    held := hheld
    seen := hseen }

/-- `Reserve` clears the page and returns it. -/
theorem Backed.reserve (h : Backed home p) (hhomes : PoolUse.Homes home p.use.pool)
    (hone : p.use.OneClaim)
    (hothers : ∀ v, v ≠ t → u'.pool.threads v = p.use.pool.threads v) {call : VictimCall} {f : Nat}
    {old : PageIdentifier} (hpc : (p.use.pool.threads t).pc = .delete call f old)
    (hpc' : (u'.pool.threads t).pc = .idle) (hreads : u'.pool.reads = p.use.pool.reads)
    (hheld : u'.HeldPages)
    (hseen : ∀ v q, u'.Seen v q → p.use.Seen v q ∨ q.2 = f) :
    Backed home { p.setPage call.id f zeroPage with use := u' } := by
  have htakes : (p.use.pool.threads t).pc.role.takes = some f := by rw [hpc]; rfl
  have hpid : call.id.pid ≠ 0 := by
    have hok := hone.ok t
    rw [hpc] at hok
    exact hok
  have hunfilled : ∀ g, Unfilled u' g ↔ Unfilled p.use g ∧ g ≠ f := by
    intro g
    unfold Unfilled
    rw [hreads]
    constructor
    · rintro (hg | ⟨v, id, hv⟩)
      · refine ⟨.inl hg, ?_⟩
        rintro rfl
        exact hone.not_read htakes hg
      · have hvt : v ≠ t := by
          rintro rfl
          rw [hpc'] at hv
          cases hv
        rw [hothers v hvt] at hv
        refine ⟨.inr ⟨v, id, hv⟩, ?_⟩
        rintro rfl
        exact hvt (hone.claim_unique (PoolPc.takes_of_fills hv) htakes)
    · rintro ⟨hg | ⟨v, id, hv⟩, hgf⟩
      · exact .inl hg
      · refine .inr ⟨v, id, ?_⟩
        have hvt : v ≠ t := by
          rintro rfl
          rw [hpc] at hv
          cases hv
          exact hgf rfl
        rw [hothers v hvt]
        exact hv
  refine h.setPage hhomes hpid (hhomes.filled t f call.id (by rw [hpc]; rfl)) hreads hunfilled
    hheld ?_ zeroPage
  intro v id g hv
  rcases hseen v (id, g) hv with hold | hgf
  · exact h.untaken hothers (by rw [hpc']; rfl) (fun hg => .inl ((hunfilled g).mp hg).1) hold
  · -- the frame was claimed by the call alone
    rintro (hg | ⟨w, old', hw⟩)
    · exact ((hunfilled g).mp hg).2 hgf
    · have hwt : w ≠ t := by
        rintro rfl
        rw [hpc'] at hw
        cases hw
      rw [hothers w hwt] at hw
      change g = f at hgf
      subst hgf
      exact hwt (hone.claim_unique (PoolPc.takes_of_hides hw) htakes)

/-- A step of a call that moves no bytes. -/
theorem Backed.call (h : Backed home p) (hhomes : PoolUse.Homes home p.use.pool)
    (hone : p.use.OneClaim)
    {a : PoolAction} (hc : p.Kept (.use (.call a))) (hs : p.use.step n (.call a) = some u')
    (hreads : u'.pool.reads = p.use.pool.reads)
    (hpin : ∀ call f old, (p.use.pool.threads a.thread).pc = .delete call f old →
      call.isIO = true) :
    ∃ home', PoolUse.Homes home' u'.pool ∧ Backed home' { p with use := u' } := by
  obtain ⟨hno, hunheld, hunmodified⟩ := hc
  have hpool := PoolUse.pool_step hs
  refine h.of_effect hhomes hone (Pool.threadStep_step hone.balanced hno hpool).others
    (Pool.effect_step hpool)
    hreads hpin hunheld hunmodified (h.held.call hs hone hhomes hno hunheld) fun v q hv => ?_
  rcases PoolUse.seen_call hs hone hno hv with hold | ⟨call, f, old, hpc, hio, -⟩
  · exact hold
  · rw [hpin call f old hpc] at hio
    cases hio

theorem backed_run (h : Backed home p) (hhomes : PoolUse.Homes home p.use.pool)
    (hone : p.use.OneClaim)
    (hc : p.Kept (.use (.call (.run t)))) (hs : p.use.step n (.call (.run t)) = some u') :
    ∃ home', PoolUse.Homes home' u'.pool ∧
      Backed home' { p.runPage (p.use.pool.threads t).pc with use := u' } := by
  have hpool := PoolUse.pool_step hs
  have hno := hc.1
  have hothers := (Pool.threadStep_step hone.balanced hno hpool).others
  have heff := Pool.effect_step hpool
  have hheld := h.held.call hs hone hhomes hno hc.2.1
  change ∀ v, v ≠ t → u'.pool.threads v = p.use.pool.threads v at hothers
  change Pool.Effect _ _ (p.use.pool.threads t).pc (u'.pool.threads t).pc at heff
  have hquiet : (∀ call f, (p.use.pool.threads t).pc ≠ .enqueue call f) →
      (∀ call f old, (p.use.pool.threads t).pc = .delete call f old → call.isIO = true) →
      ∃ home', PoolUse.Homes home' u'.pool ∧ Backed home' { p with use := u' } := by
    intro henqueue hdelete
    refine h.call hhomes hone hc hs (heff.reads_eq (fun hidle => ?_) henqueue) hdelete
    rw [Pool.step, hidle] at hpool
    cases hpool
  cases hpc : (p.use.pool.threads t).pc with
  | enqueue call f =>
      have hpc' : (u'.pool.threads t).pc = .idle := by
        rw [Pool.step, hpc] at hpool
        rw [← Option.some.inj hpool]
        exact Pool.give_pc
      rw [hpc, hpc'] at heff
      obtain ⟨hids, hmap, hreads⟩ := heff.of_enqueue
      refine ⟨home, hhomes.keep hothers hids hmap (by rw [hpc, hpc']; rfl) (by rw [hpc, hpc']; rfl)
        (fun f id hv => by rw [hpc'] at hv; cases hv) (fun f id hv => by rw [hpc'] at hv; cases hv),
        h.enqueue hhomes hothers hpc hpc' hreads hheld fun v q hv => ?_⟩
      rcases PoolUse.seen_call hs hone hno hv with hold | ⟨call', f', old, hdelete, -⟩
      · exact hold
      · rw [PoolAction.thread, hpc] at hdelete
        cases hdelete
  | delete call f old =>
      by_cases hio : call.isIO = true
      · rw [runPage, if_pos hio]
        apply hquiet
        · simp [hpc]
        · intro call' f' old' hdelete
          rw [hpc] at hdelete
          cases hdelete
          exact hio
      · have hpc' : (u'.pool.threads t).pc = .idle := by
          rw [Pool.step, hpc, Pool.runThread, if_neg hio] at hpool
          rw [← Option.some.inj hpool]
          exact Pool.give_pc
        rw [hpc, hpc'] at heff
        obtain ⟨hids, hmap, hreads⟩ := heff.of_delete
        rw [runPage, if_neg hio]
        refine ⟨home, hhomes.remove hothers hpc (.inr ⟨by simpa using hio, hpc'⟩) hids hmap,
          h.reserve hhomes hone hothers hpc hpc' hreads hheld fun v q hv => ?_⟩
        refine (PoolUse.seen_call hs hone hno hv).imp_right ?_
        rintro ⟨call', f', old', hdelete, -, rfl⟩
        rw [PoolAction.thread, hpc] at hdelete
        cases hdelete
        rfl
  | _ => exact hquiet (by simp [hpc]) (by simp [hpc])

theorem backed_signal {f : Nat} (h : Backed home p) (hhomes : PoolUse.Homes home p.use.pool)
    (hone : p.use.OneClaim)
    (hc : p.Kept (.use (.call (.signal t f)))) (hs : p.use.step n (.call (.signal t f)) = some u') :
    PoolUse.Homes home u'.pool ∧ Backed home { p.readPage f with use := u' } := by
  have hno := hc.1
  have hpool := PoolUse.pool_step hs
  have hothers : ∀ v, v ≠ t → u'.pool.threads v = p.use.pool.threads v :=
    (Pool.threadStep_step hone.balanced hno hpool).others
  simp only [Pool.step, Option.ite_none_right_eq_some] at hpool
  obtain ⟨⟨hpc, hmem⟩, hpool⟩ := hpool
  have hpc' : (u'.pool.threads t).pc = .signalLatch f := by
    rw [← Option.some.inj hpool]
    exact Pool.goto_pc
  have hreads : u'.pool.reads = p.use.pool.reads.erase f := by
    rw [← Option.some.inj hpool]
    rfl
  refine ⟨hhomes.keep hothers (by rw [← Option.some.inj hpool]; rfl)
    (by rw [← Option.some.inj hpool]; rfl)
    (by rw [hpc, hpc']; rfl) (by rw [hpc, hpc']; rfl) (fun g id hv => by rw [hpc'] at hv; cases hv)
    (fun g id hv => by rw [hpc'] at hv; cases hv), ?_⟩
  refine h.signal hone hothers hpc hpc' hmem hreads (h.held.call hs hone hhomes hno hc.2.1)
    fun v q hv => ?_
  rcases PoolUse.seen_call hs hone hno hv with hold | ⟨call, g, old, hdelete, -⟩
  · exact hold
  · rw [PoolAction.thread, hpc] at hdelete
    cases hdelete

/-- The flag is down, and no call has put its id on the frame without having raised it. -/
theorem Backed.wait (h : Backed home p) (hone : p.use.OneClaim) {id : PageIdentifier} {f : Nat}
    (hclear : (p.use.pool.frames f).ioInProgress = false)
    (hannounced : ∀ v, (p.use.pool.threads v).pc.unannounced ≠ some f) :
    Backed home
      { p with use := ⟨p.use.pool, update p.use.unwaited t ((p.use.unwaited t).erase (id, f))⟩ }
      where
  reads := h.reads
  tasks := h.tasks
  unfilled := h.unfilled
  filled := h.filled
  away := h.away
  held := ⟨h.held.ids, h.held.pid⟩
  seen v id' g hv := by
    have hflag : ∀ {w}, (p.use.pool.threads w).pc.role.raises ≠ some f := by
      intro w hw
      have hraised := hone.raised_of_raises hw
      rw [Pool.raised, hclear] at hraised
      cases hraised
    by_cases hgf : g = f
    · subst hgf
      rintro ((hread | ⟨w, id'', hw⟩) | ⟨w, old, hw⟩)
      · have hraised := hone.raised_of_read hread
        rw [Pool.raised, hclear] at hraised
        cases hraised
      · rcases PoolPc.raises_or_unannounced (.inl ⟨_, hw⟩) with hraises | hquiet
        · exact hflag hraises
        · exact hannounced w hquiet
      · rcases PoolPc.raises_or_unannounced (.inr ⟨_, hw⟩) with hraises | hquiet
        · exact hflag hraises
        · exact hannounced w hquiet
    · refine h.seen v id' g (Nat.lt_of_le_of_lt (Nat.le_of_eq ?_) hv)
      by_cases hvt : v = t
      · subst hvt
        show (p.use.unwaited v).count (id', g) =
          (update p.use.unwaited v ((p.use.unwaited v).erase (id, f)) v).count (id', g)
        rw [update_self, List.count_erase_of_ne]
        intro heq
        exact hgf (Prod.mk.inj heq).2
      · show (p.use.unwaited v).count (id', g) =
          (update p.use.unwaited t ((p.use.unwaited t).erase (id, f)) v).count (id', g)
        rw [update_of_ne hvt]

theorem inv_step {p' : PoolBytes} {a : PoolBytesAction} (h : p.Inv) (hc : p.Kept a)
    (hs : p.step n a = some p') :
    p'.Inv := by
  obtain ⟨home, hhomes, hbacked⟩ := h.backed
  cases a with
  | use a =>
      simp only [step, Option.map_eq_some_iff] at hs
      obtain ⟨u', hs, rfl⟩ := hs
      cases a with
      | call a =>
          refine ⟨h.oneClaim.step (a := .call a) hc.1 hs, ?_⟩
          cases a with
          | run t => exact backed_run hbacked hhomes h.oneClaim hc hs
          | signal t f => exact ⟨home, backed_signal hbacked hhomes h.oneClaim hc hs⟩
          | pin | reserve | unpin =>
              have hpool := PoolUse.pool_step hs
              simp only [Pool.step, Option.ite_none_right_eq_some] at hpool
              obtain ⟨⟨hidle, -⟩, hpool⟩ := hpool
              refine hbacked.call hhomes h.oneClaim hc hs (by rw [← Option.some.inj hpool]; rfl)
                fun call f old hdelete => ?_
              rw [PoolAction.thread, hidle] at hdelete
              cases hdelete
      | wait t id f =>
          have hone := h.oneClaim.step (a := .wait t id f) trivial hs
          simp only [PoolUse.step, Option.ite_none_right_eq_some] at hs
          obtain ⟨⟨-, hmem, hclear⟩, hs⟩ := hs
          cases hs
          exact ⟨hone, home, hhomes, hbacked.wait h.oneClaim hclear hc⟩
  | write t id f offset value =>
      simp only [step, Option.ite_none_right_eq_some] at hs
      obtain ⟨⟨-, hseen⟩, hs⟩ := hs
      cases hs
      have hpid := hbacked.held.pid t _ hseen.held
      have hnot := hbacked.seen t id f hseen
      exact ⟨h.oneClaim, home, hhomes,
        hbacked.setPage hhomes hpid (hbacked.home_of_seen hhomes hseen) rfl
        (fun g => ⟨fun hg => ⟨hg, fun hgf => hnot (.inl (hgf ▸ hg))⟩, And.left⟩) hbacked.held
          hbacked.seen _⟩

theorem Initial.inv (h : p.Initial) : p.Inv where
  oneClaim := by
    rw [h.use]
    exact PoolUse.OneClaim.init
  backed := by
    refine ⟨fun _ => ⟨0, 0⟩, by rw [h.use]; exact PoolUse.Homes.init, ?_⟩
    have hreads : p.use.pool.reads = [] := by rw [h.use]; rfl
    have hthreads : ∀ t, p.use.pool.threads t = ⟨.idle, []⟩ := fun t => by rw [h.use]; rfl
    have hunwaited : ∀ t, p.use.unwaited t = [] := fun t => by rw [h.use]; rfl
    exact {
      reads := by rw [hreads, h.tasks]; rfl
      tasks := fun f id hmem => by rw [h.tasks] at hmem; cases hmem
      unfilled := fun f _ => by rw [h.latest]
      filled := fun f hpid => absurd rfl hpid
      away := fun id _ => by rw [h.latest]
      held :=
        ⟨fun t id f hheld => absurd hheld (by simp [hthreads t]),
        fun t q hq => absurd hq (by simp [hthreads t])⟩
      seen := fun t id f hseen => by
        unfold PoolUse.Seen at hseen
        rw [hunwaited t, hthreads t] at hseen
        cases hseen }

theorem inv_reachable (hp : (system n).ReachableBy Kept p) : p.Inv :=
  hp.invariant (fun _ hinit => Initial.inv hinit) fun _ _ _ h hc hs => inv_step h hc hs

end Steps

/-! ## Pinned pages -/

section Pinned

variable {n : Nat} {p p' : PoolBytes}

/-- A step of thread 0 that meets the conditions when nobody else is in the pool and no page but
`w` has been written: `w` is not evicted. -/
def keptAlone (w : PageIdentifier) (p : PoolBytes) : PoolBytesAction → Bool
  | .use (.call a) =>
      let thread := p.use.pool.threads 0
      a.thread == 0 && decide (p.use.pool.NoPinOverflow a) &&
        (thread.pc.overwrites.isNone || thread.held.isEmpty) &&
        match thread.pc with
        | .put _ _ old => old != w
        | .delete call _ _ => call.isIO
        | _ => true
  | .use (.wait _ _ _) => (p.use.pool.threads 0).pc.unannounced.isNone
  | .write _ id _ _ _ => id == w

structure Alone (w : PageIdentifier) (p : PoolBytes) : Prop extends Inv p where
  others : ∀ v, v ≠ 0 → p.use.pool.threads v = ⟨.idle, []⟩
  unmodified : ∀ id, id ≠ w → p.latest id = p.disk id

variable {w : PageIdentifier}

theorem Alone.kept {a : PoolBytesAction} (h : p.Alone w) (ha : p.keptAlone w a = true) :
    p.Kept a := by
  cases a with
  | write t id f offset value => trivial
  | use a =>
      cases a with
      | wait t id f =>
          intro v hv
          by_cases hv0 : v = 0
          · subst hv0
            simp [keptAlone, hv] at ha
          · rw [h.others v hv0] at hv
            cases hv
      | call a =>
          simp only [keptAlone, Bool.and_eq_true, beq_iff_eq, decide_eq_true_eq,
            Bool.or_eq_true] at ha
          obtain ⟨⟨⟨hthread, hno⟩, hunheld⟩, hput⟩ := ha
          refine ⟨hno, fun f hf v id hheld => ?_, fun call f old hpc _ => h.unmodified old ?_⟩
          · rw [hthread] at hf
            by_cases hv0 : v = 0
            · subst hv0
              rcases hunheld with hnone | hempty
              · rw [Option.isNone_iff_eq_none.mp hnone] at hf
                cases hf
              · rw [List.isEmpty_iff.mp hempty] at hheld
                cases hheld
            · rw [h.others v hv0] at hheld
              cases hheld
          · rw [hthread] at hpc
            rw [hpc] at hput
            exact bne_iff_ne.mp hput

theorem readPage_pages {f : Nat} :
    (p.readPage f).latest = p.latest ∧ (p.readPage f).disk = p.disk := by
  unfold readPage
  split <;> exact ⟨rfl, rfl⟩

theorem Alone.step {a : PoolBytesAction} (h : p.Alone w) (ha : p.keptAlone w a = true)
    (hs : p.step n a = some p') : p'.Alone w := by
  have hinv := inv_step h.toInv (h.kept ha) hs
  cases a with
  | write t id f offset value =>
      simp only [PoolBytes.step, Option.ite_none_right_eq_some] at hs
      obtain ⟨-, hs⟩ := hs
      cases hs
      obtain rfl : id = w := beq_iff_eq.mp ha
      refine ⟨hinv, h.others, fun id' hne => ?_⟩
      show update p.latest id _ id' = p.disk id'
      rw [update_of_ne hne]
      exact h.unmodified id' hne
  | use a =>
      simp only [PoolBytes.step, Option.map_eq_some_iff] at hs
      obtain ⟨u', hs, rfl⟩ := hs
      cases a with
      | wait t id f =>
          simp only [PoolUse.step, Option.ite_none_right_eq_some] at hs
          obtain ⟨-, hs⟩ := hs
          cases hs
          exact ⟨hinv, h.others, h.unmodified⟩
      | call a =>
          simp only [keptAlone, Bool.and_eq_true, beq_iff_eq, decide_eq_true_eq] at ha
          obtain ⟨⟨⟨hthread, hno⟩, -⟩, hreads⟩ := ha
          refine ⟨hinv, fun v hv => ?_, ?_⟩
          · rw [← h.others v hv]
            exact (PoolUse.others_call hs h.oneClaim hno (by rw [hthread]; exact hv)).2
          · -- no step of the pool changes the disk, and none but that of `Reserve` the last bytes
            have hpages : (p.touch (.call a)).latest = p.latest ∧
                (p.touch (.call a)).disk = p.disk := by
              cases a with
              | signal t f => exact readPage_pages
              | pin | reserve | unpin => exact ⟨rfl, rfl⟩
              | run t =>
                  change t = 0 at hthread
                  subst hthread
                  show (p.runPage (p.use.pool.threads 0).pc).latest = _ ∧
                    (p.runPage (p.use.pool.threads 0).pc).disk = _
                  generalize (p.use.pool.threads 0).pc = pc at hreads
                  cases pc with
                  | delete call f old =>
                      rw [runPage, if_pos hreads]
                      exact ⟨rfl, rfl⟩
                  | _ => exact ⟨rfl, rfl⟩
            intro id hne
            show (p.touch (.call a)).latest id = (p.touch (.call a)).disk id
            rw [hpages.1, hpages.2]
            exact h.unmodified id hne

theorem Alone.steps (h : p.Alone w)
    (hsteps : (system n).Steps (fun p a => p.keptAlone w a = true) p p') :
    p'.Alone w ∧ (system n).Steps Kept p p' := by
  induction hsteps with
  | refl => exact ⟨h, .refl⟩
  | tail _ ha hs ih => exact ⟨ih.1.step ha hs, .tail ih.2 (ih.1.kept ha) hs⟩

def blank : PoolBytes := ⟨.init, fun _ => zeroPage, fun _ => zeroPage, fun _ => zeroPage, []⟩

theorem blank_initial : blank.Initial := ⟨rfl, rfl, rfl⟩

/-- A pinned page shows the last bytes written to it. -/
theorem lastWritten (hp : (system n).ReachableBy Kept p) : p.LastWritten := by
  intro t id f hseen
  obtain ⟨home, hhomes, hbacked⟩ := (inv_reachable hp).backed
  have hhome := hbacked.home_of_seen hhomes hseen
  have hpid := hbacked.held.pid t _ hseen.held
  have hnot := hbacked.seen t id f hseen
  rw [← hhome] at hpid ⊢
  exact hbacked.filled f hpid fun hc => hnot (.inl hc)

/-- A page is read, written and unpinned, and pinned again. -/
def writeAndPin : List PoolBytesAction :=
  .use (.call (.pin 0 ⟨1, 1⟩)) :: List.replicate 14 (.use (.call (.run 0))) ++
    .use (.call (.signal 0 0)) :: List.replicate 3 (.use (.call (.run 0))) ++
    [.use (.wait 0 ⟨1, 1⟩ 0), .write 0 ⟨1, 1⟩ 0 7 [byte 42], .use (.call (.unpin 0 ⟨1, 1⟩ 0)),
      .use (.call (.pin 0 ⟨1, 1⟩))] ++
    List.replicate 3 (.use (.call (.run 0))) ++ [.use (.wait 0 ⟨1, 1⟩ 0)]

theorem lastWritten_pinAgain : ∃ p, (system bufferPoolPageNum).ReachableBy Kept p ∧
    p.use.Seen 0 (⟨1, 1⟩, 0) ∧ p.latest ⟨1, 1⟩ 7 = byte 42 ∧ p.LastWritten := by
  have hrun : ((system bufferPoolPageNum).exec (fun p a => p.keptAlone ⟨1, 1⟩ a = true) blank
      writeAndPin).map (fun p => decide (p.use.Seen 0 (⟨1, 1⟩, 0) ∧ p.latest ⟨1, 1⟩ 7 = byte 42)) =
      some true := by
    decide +kernel
  obtain ⟨p, hexec, hp⟩ := Option.map_eq_some_iff.mp hrun
  obtain ⟨hseen, hlatest⟩ := of_decide_eq_true hp
  have halone : blank.Alone ⟨1, 1⟩ := ⟨blank_initial.inv, fun _ _ => rfl, fun _ _ => rfl⟩
  have hreachable : (system bufferPoolPageNum).ReachableBy Kept p :=
    ⟨blank, blank_initial, (halone.steps (.of_exec _ hexec)).2⟩
  exact ⟨p, hreachable, hseen, hlatest, lastWritten hreachable⟩

/-! ## A page that comes back as it is on disk -/

/-- A step of the pool leaves the disk, and pages are at most cleared. -/
theorem touch_pages (a : PoolUseAction) :
    (p.touch a).disk = p.disk ∧ ∀ id, (p.touch a).latest id = p.latest id ∨
      (p.touch a).latest id = zeroPage := by
  have hsame : p.disk = p.disk ∧ ∀ id, p.latest id = p.latest id ∨ p.latest id = zeroPage :=
    ⟨rfl, fun _ => .inl rfl⟩
  cases a with
  | wait t id f => exact hsame
  | call a =>
      cases a with
      | pin | reserve | unpin => exact hsame
      | signal t f => exact ⟨readPage_pages.2, fun id => .inl (congrFun readPage_pages.1 id)⟩
      | run t =>
          show (p.runPage (p.use.pool.threads t).pc).disk = p.disk ∧ _
          simp only [touch]
          generalize (p.use.pool.threads t).pc = pc
          cases pc with
          | delete call f old =>
              rw [runPage]
              split
              · exact hsame
              · refine ⟨rfl, fun id => ?_⟩
                show update p.latest call.id zeroPage id = p.latest id ∨
                  update p.latest call.id zeroPage id = zeroPage
                by_cases hid : id = call.id
                · rw [hid, update_self]
                  exact .inr rfl
                · rw [update_of_ne hid]
                  exact .inl rfl
          | _ => exact hsame

/-- A run of the pool is one with the bytes. -/
theorem steps_of_use {u u' : PoolUse} (hsteps : (PoolUse.system n).Steps TSys.Always u u')
    (hp : p.use = u) :
    ∃ p', (system n).Steps TSys.Always p p' ∧ p'.use = u' ∧ p'.disk = p.disk ∧
      ∀ id, p'.latest id = p.latest id ∨ p'.latest id = zeroPage := by
  induction hsteps with
  | refl => exact ⟨p, .refl, hp, rfl, fun _ => .inl rfl⟩
  | @tail v w a hsteps hc hs ih =>
      obtain ⟨q, hq, huse, hdisk, hlatest⟩ := ih
      obtain ⟨hdisk', hlatest'⟩ := touch_pages (p := q) a
      have hstep : (system n).step q (.use a) = some { q.touch a with use := w } := by
        show (q.use.step n a).map _ = _
        rw [huse, show PoolUse.step n v a = some w from hs]
        rfl
      refine ⟨{ q.touch a with use := w }, .tail hq trivial hstep, rfl,
        hdisk'.trans hdisk, fun id => ?_⟩
      rcases hlatest' id with hsame | hclear
      · rcases hlatest id with hold | hclear
        · exact .inl (hsame.trans hold)
        · exact .inr (hsame.trans hclear)
      · exact .inr hclear

/-- The read of a claimed frame copies the page from the disk. -/
theorem steps_read {u : PoolUse} {f : Nat} {t : ThreadId} {id : PageIdentifier}
    {map : PageIdentifier → Option Nat} {threads : ThreadId → PoolThread}
    (hp : p.use = PoolUse.scene u f ⟨id, 1, false, true, none⟩ map
      (update threads t ⟨.enqueue ⟨id, true⟩ f, []⟩)) :
    ∃ p', (system n).Steps TSys.Always p p' ∧ p'.use.Seen t (id, f) ∧ p'.data f = p.disk id ∧
      p'.latest = p.latest := by
  obtain ⟨use, data, disk, latest, tasks⟩ := p
  change use = _ at hp
  subst hp
  refine ⟨⟨⟨{
    (PoolUse.scene u f ⟨id, 1, false, false, none⟩ map
      (update threads t ⟨.idle, [(id, f)]⟩)).pool with
      reads := u.pool.reads }, fun _ => []⟩, update data f (disk id), disk, latest, tasks⟩,
    TSys.Steps.of_exec (.use (.call (.run t)) :: .use (.call (.signal t f)) ::
      List.replicate 3 (.use (.call (.run t))) ++ [.use (.wait t id f)]) ?_, ?_,
        update_self .., rfl⟩
  · simp [TSys.exec, TSys.Always, system, List.replicate, step, PoolUse.step, PoolUse.scene,
      Pool.step, Pool.runThread, touch,
      runPage, readPage, Pool.setFrame, Pool.goto, Pool.give, Pool.returnsPin, Frame.setLatch,
        Frame.clearIOInProgress]
  · simp [PoolUse.Seen, PoolUse.scene]

/-- A page is written and given back, the sweep comes around to its frame, and it is read again. -/
theorem written_page_lost : ¬∀ p, (system bufferPoolPageNum).Reachable p → p.LastWritten := by
  intro hall
  obtain ⟨n, hn⟩ : ∃ n, n = bufferPoolPageNum := ⟨_, rfl⟩
  have hone : 1 < n := by rw [hn]; decide
  have hlt : n + 2 < 2 ^ 32 - 1 := by rw [hn]; decide
  rw [← hn] at hall
  -- the pages on disk are full of ones
  let ones : Mem := fun _ => 1
  let p₀ : PoolBytes := ⟨.init, fun _ => zeroPage, fun _ => ones, fun _ => ones, []⟩
  have hinit : (system n).init p₀ := ⟨rfl, rfl, rfl⟩
  -- the first page goes into frame 0
  obtain ⟨u₁, id, hsteps₁, hu₁, -, hframes₁, hmap₁⟩ :=
    PoolUse.Rested.init.round (n := n) rfl (by omega)
  rw [Nat.zero_mod] at hframes₁ hmap₁
  have hmapped : u₁.pool.map ⟨1, 1⟩ = some 0 := by
    rw [hmap₁, if_neg (by intro hc; cases hc)]
    exact update_self ..
  have hframe : u₁.pool.frames 0 = ⟨⟨1, 1⟩, 0, false, false, none⟩ := by rw [hframes₁, update_self]
  have hscene :
      PoolUse.scene u₁ 0 ⟨⟨1, 1⟩, 0, false, false, none⟩ u₁.pool.map u₁.pool.threads = u₁ := by
    rw [PoolUse.scene, ← hframe, update_eq_self, ← hu₁.unwaited]
  have hpin := hsteps₁
  rw [← hscene] at hpin
  have hidle : u₁.pool.threads 0 = ⟨.idle, []⟩ := by rw [hu₁.threads]
  have hpinned := hpin.trans (PoolUse.scene_pin hidle hmapped ⟨by simp, by simp⟩ rfl)
  obtain ⟨p₁, hp₁, huse₁, hdisk₁, -⟩ := steps_of_use (p := p₀) hpinned rfl
  -- it is written
  have hwrite : (system n).step p₁ (.write 0 ⟨1, 1⟩ 0 0 [2]) =
      some (p₁.setPage ⟨1, 1⟩ 0 ((p₁.data 0).write 0 [2])) := by
    refine if_pos ?_
    rw [huse₁]
    simp [PoolUse.scene, PoolUse.Seen]
  -- and given back
  have hunpin : (PoolUse.system n).Steps TSys.Always
      (PoolUse.scene u₁ 0 ⟨⟨1, 1⟩, 1, false, false, none⟩ u₁.pool.map
        (update u₁.pool.threads 0 ⟨.idle, [(⟨1, 1⟩, 0)]⟩))
      (PoolUse.scene u₁ 0 (Frame.unpin ⟨⟨1, 1⟩, 1, false, false, none⟩) u₁.pool.map
        (update (update u₁.pool.threads 0 ⟨.idle, [(⟨1, 1⟩, 0)]⟩) 0 ⟨.idle, []⟩)) :=
    PoolUse.scene_unpin (update_self ..) rfl
  have hback : update (update u₁.pool.threads 0 ⟨.idle, [(⟨1, 1⟩, 0)]⟩) 0 ⟨.idle, []⟩ =
      u₁.pool.threads := by
    rw [update_idem, hu₁.threads]
    exact update_eq_self ..
  rw [hback, show Frame.unpin ⟨⟨1, 1⟩, 1, false, false, none⟩ =
    ⟨⟨1, 1⟩, 0, false, false, none⟩ from rfl, hscene]
    at hunpin
  -- other pages go into the other frames, and one into frame 0
  obtain ⟨u₂, hsteps₂, hu₂, hfirst₂⟩ := hu₁.rounds (n := n) ⟨hframe, hmapped⟩ rfl (n - 1)
    (fun i hi => by rw [Nat.mod_eq_of_lt (by omega)]; omega) (by omega)
  rw [show 0 + 1 + (n - 1) = n by omega] at hu₂
  obtain ⟨u₃, id₃, hsteps₃, hu₃, hid₃, -, hmap₃⟩ := hu₂.round (n := n) rfl (by omega)
  rw [Nat.mod_self] at hid₃ hmap₃
  have hgone : u₃.pool.map ⟨1, 1⟩ = none := by
    rw [← hid₃, hfirst₂.frame, if_pos hfirst₂.map] at hmap₃
    rw [hmap₃]
    exact update_self ..
  -- the first page is read again
  obtain ⟨old, hframe₃, -⟩ := hu₃.frames ((n + 1) % n)
  have hagain := ((hu₃.sweep (n := n) rfl (by omega) hgone ⟨by simp, by simp⟩ hframe₃).trans
    (PoolUse.scene_claim (update_self ..))).trans (PoolUse.scene_publish (update_self ..) hgone)
  obtain ⟨p₂, hp₂, huse₂, hdisk₂, hlatest₂⟩ :=
    steps_of_use (p := p₁.setPage ⟨1, 1⟩ 0 ((p₁.data 0).write 0 [2]))
      (((hunpin.trans hsteps₂).trans hsteps₃).trans hagain) huse₁
  obtain ⟨p₃, hp₃, hseen₃, hdata₃, hlatest₃⟩ := steps_read (n := n) huse₂
  have hrun := ((hp₁.trans (.single trivial hwrite)).trans hp₂).trans hp₃
  have hlast := hall p₃ ⟨p₀, hinit, hrun⟩ 0 ⟨1, 1⟩ _ hseen₃
  rw [hdata₃, hlatest₃, hdisk₂] at hlast
  have hones : (p₁.setPage ⟨1, 1⟩ 0 ((p₁.data 0).write 0 [2])).disk = fun _ => ones := hdisk₁
  rw [hones] at hlast
  have hbyte := congrFun hlast 0
  rcases hlatest₂ ⟨1, 1⟩ with hwritten | hcleared
  · have htwo : (p₁.setPage ⟨1, 1⟩ 0 ((p₁.data 0).write 0 [2])).latest ⟨1, 1⟩ 0 = 2 := by
      show update p₁.latest ⟨1, 1⟩ ((p₁.data 0).write 0 [2]) ⟨1, 1⟩ 0 = 2
      rw [update_self]
      rfl
    rw [hwritten, htwo] at hbyte
    cases hbyte
  · rw [hcleared] at hbyte
    cases hbyte

end Pinned

end PoolBytes

end Db7
