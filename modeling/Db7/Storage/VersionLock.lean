import Db7.Lib.TSys
import Mathlib.Data.List.Nodup
import Mathlib.Logic.Function.Basic

/-!
# The version lock of a page

A writer holds the mutex of the page and makes its sequence counter odd while it writes.
`Lock<Optimistic>` only reads the counter; after `MAX_OPTIMISTIC_TRIES` it takes the
mutex in shared mode instead. `Unlock<Optimistic>` does not know which of the two was
done: like `Lock` it asks the thread-local number of tries.

* **pages** (`PageInv`): the counter is odd exactly in a write section, and otherwise the
  words are those that the last section left;
* **readers** (`ReaderInv`): what a thread has read is what the page holds, as long as its
  version is the counter or it has the mutex, which it has exactly when its tries say so;
* **result** (`unlock_consistent`): reads that `Unlock` confirms are of one page state, and
  every shared lock is released once, on its page.
-/

namespace Db7

open Lib Function

/-- `MAX_OPTIMISTIC_TRIES`. -/
def maxOptimisticTries : Nat := 1

/-- How far the writer of a page is. -/
inductive WritePhase
  | locked | writing | unlocking
  deriving DecidableEq, Repr

/-- `AdaptiveVersionLock` and the words of its page; `published` are the page states that
the write sections have left, the last one first. The counter does not wrap. -/
structure VersionedPage (τ ω ν : Type) where
  seq : Nat
  writer : Option (τ × WritePhase)
  shared : List τ
  words : ω → ν
  published : List (ω → ν)

/-- What a thread does to the mutex of a page in `Lock<Optimistic>` and
`Unlock<Optimistic>`. -/
inductive LockEvent (π : Type)
  | readLock (p : π)
  | readUnlock (p : π)
  deriving DecidableEq, Repr

/-- Where a reader is: in the loop of `Lock`, before `SetVersion`, before `RDataLock`,
between the two calls with what it has read, in one of the branches of `Unlock`, or
after it. -/
inductive ReadPc (π ω ν : Type)
  | idle
  | tryVersion (p : π) (ver : Nat)
  | setVersion (p : π) (ver : Nat)
  | readLock (p : π)
  | reading (p : π) (log : List (ω × ν))
  | validate (p : π) (log : List (ω × ν))
  | readUnlock (p : π) (log : List (ω × ν))
  | returned (p : π) (log : List (ω × ν)) (result : Bool)

/-- A thread with its `TlState`, and what it did to mutexes, the last first. -/
structure Reader (π ω ν : Type) where
  pc : ReadPc π ω ν
  tries : Nat
  version : Nat
  events : List (LockEvent π)

/-- The pages and the threads. -/
structure VersionLocks (τ π ω ν : Type) where
  pages : π → VersionedPage τ ω ν
  threads : τ → Reader π ω ν

/-- What a scheduler may do next. Any thread may write any pages; between a `Lock` and its
`Unlock` it reads words of that page, and outside it may call `Clear`. -/
inductive LockAction (τ π ω ν : Type)
  | writeLock (t : τ) (p : π)
  | beginWrite (t : τ) (p : π)
  | store (t : τ) (p : π) (w : ω) (v : ν)
  | endWrite (t : τ) (p : π)
  | writeUnlock (t : τ) (p : π)
  | clear (t : τ)
  | lock (t : τ) (p : π)
  | load (t : τ) (w : ω)
  | unlock (t : τ)
  | run (t : τ)

namespace VersionLocks

variable {τ π ω ν : Type} [DecidableEq τ] [DecidableEq π] [DecidableEq ω]

/-- The state with another page. -/
def setPage (s : VersionLocks τ π ω ν) (p : π) (pg : VersionedPage τ ω ν) : VersionLocks τ π ω ν :=
  { s with pages := update s.pages p pg }

/-- The state with another thread. -/
def setThread (s : VersionLocks τ π ω ν) (t : τ) (r : Reader π ω ν) : VersionLocks τ π ω ν :=
  { s with threads := update s.threads t r }

/-- The next access of `Lock` or `Unlock`. -/
def runNext (s : VersionLocks τ π ω ν) (t : τ) : Option (VersionLocks τ π ω ν) :=
  let r := s.threads t
  match r.pc with
  | .idle => none
  | .tryVersion p ver =>
      if r.tries < maxOptimisticTries then
        if (s.pages p).seq % 2 = 0
          then some (s.setThread t { r with pc := .setVersion p (s.pages p).seq })
        else some
          (s.setThread t { r with pc := .tryVersion p (s.pages p).seq, tries := r.tries + 1 })
      else some (s.setThread t { r with pc := .setVersion p ver })
  | .setVersion p ver =>
      if maxOptimisticTries ≤ r.tries
        then some (s.setThread t { r with pc := .readLock p, version := ver })
      else some (s.setThread t { r with pc := .reading p [], version := ver })
  | .readLock p =>
      if (s.pages p).writer.isNone then
        some ((s.setPage p { s.pages p with shared := t :: (s.pages p).shared }).setThread t
          { r with pc := .reading p [], events := .readLock p :: r.events })
      else none
  | .reading _ _ => none
  | .validate p log =>
      if (s.pages p).seq = r.version then some (s.setThread t { r with pc := .returned p log true })
      else some (s.setThread t { r with pc := .returned p log false, tries := r.tries + 1 })
  | .readUnlock p log =>
      some ((s.setPage p { s.pages p with shared := (s.pages p).shared.erase t }).setThread t
        { r with pc := .returned p log true, events := .readUnlock p :: r.events })
  | .returned _ _ _ => some (s.setThread t { r with pc := .idle })

/-- One step. -/
def step (s : VersionLocks τ π ω ν) : LockAction τ π ω ν → Option (VersionLocks τ π ω ν)
  | .writeLock t p =>
      if (s.pages p).writer.isNone ∧ (s.pages p).shared.isEmpty then
        some (s.setPage p { s.pages p with writer := some (t, .locked) })
      else none
  | .beginWrite t p =>
      if (s.pages p).writer = some (t, .locked) then
        some
          (s.setPage p { s.pages p with seq := (s.pages p).seq + 1, writer := some (t, .writing) })
      else none
  | .store t p w v =>
      if (s.pages p).writer = some (t, .writing) then
        some (s.setPage p { s.pages p with words := update (s.pages p).words w v })
      else none
  | .endWrite t p =>
      if (s.pages p).writer = some (t, .writing) then
        some (s.setPage p { s.pages p with
          seq := (s.pages p).seq + 1
          writer := some (t, .unlocking)
          published := (s.pages p).words :: (s.pages p).published })
      else none
  | .writeUnlock t p =>
      if (s.pages p).writer = some (t, .unlocking)
        then some (s.setPage p { s.pages p with writer := none })
      else none
  | .clear t =>
      match (s.threads t).pc with
      | .idle => some (s.setThread t { s.threads t with tries := 0, version := 0 })
      | _ => none
  | .lock t p =>
      match (s.threads t).pc with
      | .idle => some (s.setThread t { s.threads t with pc := .tryVersion p 0 })
      | _ => none
  | .load t w =>
      match (s.threads t).pc with
      | .reading p log =>
          some
            (s.setThread t { s.threads t with pc := .reading p ((w, (s.pages p).words w) :: log) })
      | _ => none
  | .unlock t =>
      match (s.threads t).pc with
      | .reading p log =>
          if maxOptimisticTries ≤ (s.threads t).tries then
            some (s.setThread t { s.threads t with pc := .readUnlock p log })
          else some (s.setThread t { s.threads t with pc := .validate p log })
      | _ => none
  | .run t => s.runNext t

/-- No lock is taken, and nothing has been done. -/
def Init (s : VersionLocks τ π ω ν) : Prop :=
  (∀ p, (s.pages p).seq = 0 ∧ (s.pages p).writer = none ∧ (s.pages p).shared = [] ∧
    (s.pages p).published = [(s.pages p).words]) ∧
  ∀ t, s.threads t = ⟨.idle, 0, 0, []⟩

/-- The locks as a transition system. -/
def system (τ π ω ν : Type) [DecidableEq τ] [DecidableEq π] [DecidableEq ω] :
    TSys (VersionLocks τ π ω ν) (LockAction τ π ω ν) := ⟨Init, step⟩

end VersionLocks

/-! ## Shared locks in order -/

namespace LockEvent

variable {π : Type} [DecidableEq π]

/-- The page whose mutex is held after these events, the last one first; `none` when a lock
is taken while one is held, or released without it. -/
def openLock : List (LockEvent π) → Option (Option π)
  | [] => some none
  | readLock p :: events => if openLock events = some none then some (some p) else none
  | readUnlock p :: events => if openLock events = some (some p) then some none else none

end LockEvent

/-! ## Pages -/

namespace VersionedPage

variable {τ ω ν : Type} {pg pg' : VersionedPage τ ω ν} {log : List (ω × ν)}

/-- The counter is odd exactly in a write section; outside, the words are a page state
between two of them; a writer is alone. -/
structure PageInv (pg : VersionedPage τ ω ν) : Prop where
  odd : pg.seq % 2 = 1 ↔ ∃ t, pg.writer = some (t, .writing)
  current : pg.seq % 2 = 0 → pg.words ∈ pg.published
  exclusive : pg.writer ≠ none → pg.shared = []
  nodup : pg.shared.Nodup

/-- What has been read is what the page holds. -/
def Agrees (pg : VersionedPage τ ω ν) (log : List (ω × ν)) : Prop := ∀ e ∈ log, e.2 = pg.words e.1

/-- The same, if the counter is still the version. -/
structure AgreesAt (pg : VersionedPage τ ω ν) (version : Nat) (log : List (ω × ν)) : Prop where
  even : version % 2 = 0
  le : version ≤ pg.seq
  agrees : pg.seq = version → pg.Agrees log

/-- What has been read is of one page state between two write sections. -/
def OneState (pg : VersionedPage τ ω ν) (log : List (ω × ν)) : Prop :=
  ∃ σ ∈ pg.published, ∀ e ∈ log, e.2 = σ e.1

theorem Agrees.cons (hlog : pg.Agrees log) (w : ω) : pg.Agrees ((w, pg.words w) :: log) := by
  intro e he
  rcases List.mem_cons.mp he with rfl | he
  · rfl
  · exact hlog e he

theorem AgreesAt.cons {version : Nat} (hlog : pg.AgreesAt version log) (w : ω) :
    pg.AgreesAt version ((w, pg.words w) :: log) :=
  ⟨hlog.even, hlog.le, fun hseq => (hlog.agrees hseq).cons w⟩

theorem PageInv.oneState (h : pg.PageInv) (heven : pg.seq % 2 = 0) (hlog : pg.Agrees log) :
    pg.OneState log :=
  ⟨pg.words, h.current heven, hlog⟩

/-- A shared lock keeps writers out. -/
theorem PageInv.even_of_shared (h : pg.PageInv) {t : τ} (ht : t ∈ pg.shared) : pg.seq % 2 = 0 := by
  rcases Nat.mod_two_eq_zero_or_one pg.seq with heven | hodd
  · exact heven
  · obtain ⟨u, hwriter⟩ := h.odd.mp hodd
    have hempty := h.exclusive (by rw [hwriter]; simp)
    rw [hempty] at ht
    exact absurd ht List.not_mem_nil

/-- What a step of another thread leaves as `u` relies on it. -/
structure StepSeenBy (u : τ) (pg pg' : VersionedPage τ ω ν) : Prop where
  seq : pg.seq ≤ pg'.seq
  shared : u ∈ pg'.shared ↔ u ∈ pg.shared
  published : ∀ σ ∈ pg.published, σ ∈ pg'.published
  /-- Only in a section, which makes the counter odd, are there new words. -/
  words : pg'.seq = pg.seq → pg.seq % 2 = 0 → pg'.words = pg.words
  held : u ∈ pg.shared → pg'.words = pg.words

namespace StepSeenBy

variable {u : τ}

theorem refl (pg : VersionedPage τ ω ν) : StepSeenBy u pg pg :=
  ⟨Nat.le_refl _, Iff.rfl, fun _ h => h, fun _ _ => rfl, fun _ => rfl⟩

theorem agreesAt (h : StepSeenBy u pg pg') {version : Nat} (hlog : pg.AgreesAt version log) :
    pg'.AgreesAt version log where
  even := hlog.even
  le := Nat.le_trans hlog.le h.seq
  agrees heq := by
    have hseq : pg.seq = version := Nat.le_antisymm (heq ▸ h.seq) hlog.le
    have hwords := h.words (heq.trans hseq.symm) (hseq ▸ hlog.even)
    unfold Agrees
    rw [hwords]
    exact hlog.agrees hseq

theorem agrees (h : StepSeenBy u pg pg') (hshared : u ∈ pg.shared) (hlog : pg.Agrees log) :
    pg'.Agrees log := by
  unfold Agrees
  rw [h.held hshared]
  exact hlog

theorem oneState (h : StepSeenBy u pg pg') (hlog : pg.OneState log) : pg'.OneState log := by
  obtain ⟨σ, hσ, hread⟩ := hlog
  exact ⟨σ, h.published σ hσ, hread⟩

end StepSeenBy

/-- A step of the writer: a page that is well formed, as every reader expects it. -/
structure WriterStep (pg pg' : VersionedPage τ ω ν) : Prop where
  inv : pg'.PageInv
  seen : ∀ u, StepSeenBy u pg pg'

/-- A writer has kept the readers out before it writes. -/
theorem PageInv.not_shared (h : pg.PageInv) {t u : τ} {phase : WritePhase}
    (hwriter : pg.writer = some (t, phase)) : u ∉ pg.shared := by
  rw [h.exclusive (by rw [hwriter]; simp)]
  exact List.not_mem_nil

/-- Without a write section the counter is even. -/
theorem PageInv.even_of_not_writing (h : pg.PageInv)
    (hwriter : ∀ t, pg.writer ≠ some (t, .writing)) :
    pg.seq % 2 = 0 := by
  rcases Nat.mod_two_eq_zero_or_one pg.seq with heven | hodd
  · exact heven
  · obtain ⟨t, ht⟩ := h.odd.mp hodd
    exact absurd ht (hwriter t)

namespace PageInv

variable {t : τ}

theorem writeLock (h : pg.PageInv) (hfree : pg.writer = none) (hshared : pg.shared = []) :
    WriterStep pg { pg with writer := some (t, .locked) } where
  inv := {
    odd := by
      have heven := h.even_of_not_writing (by simp [hfree])
      simp [heven]
    current := h.current
    exclusive := fun _ => hshared
    nodup := h.nodup }
  seen _ := ⟨Nat.le_refl _, Iff.rfl, fun _ h => h, fun _ _ => rfl, fun _ => rfl⟩

theorem beginWrite (h : pg.PageInv) (hwriter : pg.writer = some (t, .locked)) :
    WriterStep pg { pg with seq := pg.seq + 1, writer := some (t, .writing) } where
  inv := by
    have heven := h.even_of_not_writing (by simp [hwriter])
    exact {
      odd := ⟨fun _ => ⟨t, rfl⟩, fun _ => by show (pg.seq + 1) % 2 = 1; omega⟩
      current := fun hc => by
        change (pg.seq + 1) % 2 = 0 at hc
        omega
      exclusive := fun _ => h.exclusive (by simp [hwriter])
      nodup := h.nodup }
  seen _ := ⟨Nat.le_succ _, Iff.rfl, fun _ h => h, fun _ _ => rfl, fun _ => rfl⟩

theorem store [DecidableEq ω] (h : pg.PageInv) (hwriter : pg.writer = some (t, .writing))
    (w : ω) (v : ν) :
    WriterStep pg { pg with words := update pg.words w v } where
  inv := by
    have hodd := h.odd.mpr ⟨t, hwriter⟩
    exact {
      odd := h.odd
      current := fun hc => by
        change pg.seq % 2 = 0 at hc
        omega
      exclusive := h.exclusive
      nodup := h.nodup }
  seen u := by
    have hodd := h.odd.mpr ⟨t, hwriter⟩
    exact {
      seq := Nat.le_refl _
      shared := Iff.rfl
      published := fun _ hσ => hσ
      words := fun _ heven => by omega
      held := fun hu => absurd hu (h.not_shared hwriter) }

theorem endWrite (h : pg.PageInv) (hwriter : pg.writer = some (t, .writing)) :
    WriterStep pg { pg with seq := pg.seq + 1, writer := some (t, .unlocking), published :=
      pg.words :: pg.published } where
  inv := by
    have hodd := h.odd.mpr ⟨t, hwriter⟩
    exact {
      odd := by
        constructor
        · intro hc
          change (pg.seq + 1) % 2 = 1 at hc
          omega
        · rintro ⟨u, hu⟩
          cases hu
      current := fun _ => List.mem_cons_self
      exclusive := fun _ => h.exclusive (by simp [hwriter])
      nodup := h.nodup }
  seen _ := ⟨Nat.le_succ _, Iff.rfl, fun _ hσ => List.mem_cons_of_mem _ hσ,
    fun _ _ => rfl, fun _ => rfl⟩

theorem writeUnlock (h : pg.PageInv) (hwriter : pg.writer = some (t, .unlocking)) :
    WriterStep pg { pg with writer := none } where
  inv := {
    odd := by
      have heven := h.even_of_not_writing (by simp [hwriter])
      simp [heven]
    current := h.current
    exclusive := fun hc => absurd rfl hc
    nodup := h.nodup }
  seen _ := ⟨Nat.le_refl _, Iff.rfl, fun _ h => h, fun _ _ => rfl, fun _ => rfl⟩

/-- Readers share the mutex. -/
theorem readLock (h : pg.PageInv) (hfree : pg.writer = none) (ht : t ∉ pg.shared) :
    PageInv { pg with shared := t :: pg.shared } where
  odd := h.odd
  current := h.current
  exclusive hc := absurd hfree hc
  nodup := List.nodup_cons.mpr ⟨ht, h.nodup⟩

theorem readUnlock [DecidableEq τ] (h : pg.PageInv) :
    PageInv { pg with shared := pg.shared.erase t } where
  odd := h.odd
  current := h.current
  exclusive hc := by
    have hempty := h.exclusive hc
    show pg.shared.erase t = []
    rw [hempty]
    rfl
  nodup := h.nodup.erase t

end PageInv

end VersionedPage

/-! ## Readers -/

namespace Reader

variable {τ π ω ν : Type} {pages pages' : π → VersionedPage τ ω ν} {t : τ} {r : Reader π ω ν}

/-- The page whose mutex the thread has in shared mode. -/
def holds (r : Reader π ω ν) : Option π :=
  match r.pc with
  | .reading p _ => if maxOptimisticTries ≤ r.tries then some p else none
  | .readUnlock p _ => some p
  | _ => none

/-- What the thread knows where it is. -/
def Knows (pages : π → VersionedPage τ ω ν) (r : Reader π ω ν) : Prop :=
  match r.pc with
  | .idle => True
  | .tryVersion _ _ => True
  | .setVersion p ver => r.tries < maxOptimisticTries → (pages p).AgreesAt ver []
  | .readLock _ => maxOptimisticTries ≤ r.tries
  | .reading p log =>
      if maxOptimisticTries ≤ r.tries then (pages p).Agrees log
        else (pages p).AgreesAt r.version log
  | .validate p log => (pages p).AgreesAt r.version log
  | .readUnlock p log => (pages p).Agrees log
  | .returned p log result => result = true → (pages p).OneState log

/-- The mutexes a thread has are those its tries tell of. -/
structure ReaderInv [DecidableEq π] (pages : π → VersionedPage τ ω ν) (t : τ) (r : Reader π ω ν) :
    Prop where
  shared : ∀ p, t ∈ (pages p).shared ↔ r.holds = some p
  events : LockEvent.openLock r.events = some r.holds
  knows : r.Knows pages

variable [DecidableEq π]

/-- What other threads do leaves the invariant. -/
theorem ReaderInv.other (h : ReaderInv pages t r)
    (hseen : ∀ p, (pages p).StepSeenBy t (pages' p)) : ReaderInv pages' t r where
  shared p := (hseen p).shared.trans (h.shared p)
  events := h.events
  knows := by
    have hshared := h.shared
    have hknows := h.knows
    unfold Knows at hknows ⊢
    unfold holds at hshared
    cases hpc : r.pc with
    | idle => trivial
    | tryVersion p ver => trivial
    | setVersion p ver =>
        rw [hpc] at hknows
        exact fun htries => (hseen p).agreesAt (hknows htries)
    | readLock p =>
        rw [hpc] at hknows
        exact hknows
    | reading p log =>
        rw [hpc] at hknows hshared
        by_cases htries : maxOptimisticTries ≤ r.tries
        · simp only [if_pos htries] at hknows hshared ⊢
          exact (hseen p).agrees ((hshared p).mpr rfl) hknows
        · simp only [if_neg htries] at hknows ⊢
          exact (hseen p).agreesAt hknows
    | validate p log =>
        rw [hpc] at hknows
        exact (hseen p).agreesAt hknows
    | readUnlock p log =>
        rw [hpc] at hknows hshared
        exact (hseen p).agrees ((hshared p).mpr rfl) hknows
    | returned p log result =>
        rw [hpc] at hknows
        exact fun hresult => (hseen p).oneState (hknows hresult)

/-- A thread that goes on without touching a mutex. -/
theorem ReaderInv.move (h : ReaderInv pages t r) {r' : Reader π ω ν} (hholds : r'.holds = r.holds)
    (hevents : r'.events = r.events) (hknows : r'.Knows pages) : ReaderInv pages t r' where
  shared p := by rw [hholds]; exact h.shared p
  events := by rw [hholds, hevents]; exact h.events
  knows := hknows

/-- The fallback takes the mutex. -/
theorem ReaderInv.readLock [DecidableEq τ] (h : ReaderInv pages t r) {p : π}
    (hpc : r.pc = .readLock p) :
    ReaderInv (update pages p { pages p with shared := t :: (pages p).shared }) t
      { r with pc := .reading p [], events := .readLock p :: r.events } := by
  have hnone : r.holds = none := by rw [holds, hpc]
  have htries : maxOptimisticTries ≤ r.tries := by
    have hknows := h.knows
    rw [Knows, hpc] at hknows
    exact hknows
  have hholds :
      Reader.holds
      { r with pc := .reading p ([] : List (ω × ν)), events := .readLock p :: r.events } = some p :=
    if_pos htries
  exact {
    shared := by
      intro q
      rw [hholds]
      by_cases hq : q = p
      · subst hq
        simp
      · rw [update_of_ne hq, h.shared q, hnone]
        simp [Ne.symm hq]
    events := by
      rw [hholds, LockEvent.openLock, h.events, hnone]
      exact if_pos rfl
    knows := by
      show if maxOptimisticTries ≤ r.tries then _ else _
      rw [if_pos htries]
      exact fun e he => absurd he List.not_mem_nil }

/-- `Unlock` gives back the mutex that `Lock` took. -/
theorem ReaderInv.readUnlock [DecidableEq τ] (h : ReaderInv pages t r)
    (hpage : ∀ p, (pages p).PageInv) {p : π} {log : List (ω × ν)} (hpc : r.pc = .readUnlock p log) :
    ReaderInv (update pages p { pages p with shared := (pages p).shared.erase t }) t
      { r with pc := .returned p log true, events := .readUnlock p :: r.events } := by
  have hheld : r.holds = some p := by rw [holds, hpc]
  have hmem : t ∈ (pages p).shared := (h.shared p).mpr hheld
  exact {
    shared := by
      intro q
      show _ ↔ none = some q
      by_cases hq : q = p
      · subst hq
        rw [update_self]
        simp [(hpage q).nodup.mem_erase_iff]
      · rw [update_of_ne hq, h.shared q, hheld]
        simp [Ne.symm hq]
    events := by
      show LockEvent.openLock (.readUnlock p :: r.events) = some none
      rw [LockEvent.openLock, h.events, hheld]
      exact if_pos rfl
    knows := by
      have hknows := h.knows
      rw [Knows, hpc] at hknows
      intro _
      rw [update_self]
      exact (hpage p).oneState ((hpage p).even_of_shared hmem) hknows }

end Reader

namespace VersionLocks

variable {τ π ω ν : Type} [DecidableEq π] {s s' : VersionLocks τ π ω ν}

/-- All pages and all threads. -/
structure Inv (s : VersionLocks τ π ω ν) : Prop where
  pages : ∀ p, (s.pages p).PageInv
  readers : ∀ t, (s.threads t).ReaderInv s.pages t

theorem Inv.init (h : Init s) : s.Inv where
  pages p := by
    obtain ⟨hseq, hwriter, hshared, hpublished⟩ := h.1 p
    exact {
      odd := by simp [hseq, hwriter]
      current := by simp [hpublished]
      exclusive := fun _ => hshared
      nodup := by simp [hshared] }
  readers t := by
    have hr := h.2 t
    exact {
      shared := by
        intro p
        simp [(h.1 p).2.2.1, hr, Reader.holds]
      events := by simp [hr, Reader.holds, LockEvent.openLock]
      knows := by simp [hr, Reader.Knows] }

/-- A writer's step. -/
theorem Inv.write (h : s.Inv) {p : π} {pg : VersionedPage τ ω ν}
    (hstep : (s.pages p).WriterStep pg) :
    (s.setPage p pg).Inv where
  pages q := by
    show (update s.pages p pg q).PageInv
    by_cases hq : q = p
    · subst hq
      rw [update_self]
      exact hstep.inv
    · rw [update_of_ne hq]
      exact h.pages q
  readers t := by
    refine (h.readers t).other fun q => ?_
    show (s.pages q).StepSeenBy t (update s.pages p pg q)
    by_cases hq : q = p
    · subst hq
      rw [update_self]
      exact hstep.seen t
    · rw [update_of_ne hq]
      exact .refl _

variable [DecidableEq τ]

/-- A reader's step that leaves the pages. -/
theorem Inv.setThread (h : s.Inv) {t : τ} {r : Reader π ω ν} (hr : r.ReaderInv s.pages t) :
    (s.setThread t r).Inv where
  pages := h.pages
  readers u := by
    show (update s.threads t r u).ReaderInv s.pages u
    by_cases hu : u = t
    · subst hu
      rw [update_self]
      exact hr
    · rw [update_of_ne hu]
      exact h.readers u

/-- A reader's step on the mutex of a page: to the others only the holders change. -/
theorem Inv.setShared (h : s.Inv) {t : τ} {p : π} {shared : List τ} {r : Reader π ω ν}
    (hpage : VersionedPage.PageInv { s.pages p with shared := shared })
    (hothers : ∀ u, u ≠ t → (u ∈ shared ↔ u ∈ (s.pages p).shared))
    (hr : r.ReaderInv (update s.pages p { s.pages p with shared := shared }) t) :
    ((s.setPage p { s.pages p with shared := shared }).setThread t r).Inv where
  pages q := by
    show (update s.pages p _ q).PageInv
    by_cases hq : q = p
    · subst hq
      rw [update_self]
      exact hpage
    · rw [update_of_ne hq]
      exact h.pages q
  readers u := by
    show (update s.threads t r u).ReaderInv (update s.pages p _) u
    by_cases hu : u = t
    · subst hu
      rw [update_self]
      exact hr
    · rw [update_of_ne hu]
      refine (h.readers u).other fun q => ?_
      by_cases hq : q = p
      · subst hq
        rw [update_self]
        exact ⟨Nat.le_refl _, hothers u hu, fun _ hσ => hσ, fun _ _ => rfl, fun _ => rfl⟩
      · rw [update_of_ne hq]
        exact .refl _

/-- A reader's step without a mutex. -/
theorem Inv.move (h : s.Inv) {t : τ} {r : Reader π ω ν} (hholds : r.holds = (s.threads t).holds)
    (hevents : r.events = (s.threads t).events) (hknows : r.Knows s.pages) :
    (s.setThread t r).Inv :=
  h.setThread ((h.readers t).move hholds hevents hknows)

/-- Inside `Lock` and `Unlock`. -/
theorem Inv.runNext (h : s.Inv) {t : τ} (hstep : s.runNext t = some s') : s'.Inv := by
  have hknows := (h.readers t).knows
  have hmove := fun r => h.move (t := t) (r := r)
  unfold VersionLocks.runNext at hstep
  unfold Reader.Knows at hknows
  unfold Reader.holds at hmove
  cases hpc : (s.threads t).pc with
  | idle =>
      simp only [hpc] at hstep
      cases hstep
  | tryVersion p ver =>
      simp only [hpc] at hstep hmove
      split at hstep
      · split at hstep
        · rename_i heven
          cases hstep
          exact hmove _ rfl rfl fun _ =>
            ⟨heven, Nat.le_refl _, fun _ e he => absurd he List.not_mem_nil⟩
        · cases hstep
          exact hmove _ rfl rfl trivial
      · rename_i htries
        cases hstep
        exact hmove _ rfl rfl fun hlt => absurd hlt htries
  | setVersion p ver =>
      simp only [hpc] at hstep hmove hknows
      split at hstep
      · rename_i htries
        cases hstep
        exact hmove _ rfl rfl htries
      · rename_i htries
        cases hstep
        refine hmove _ (if_neg htries) rfl ?_
        show if _ then _ else _
        rw [if_neg htries]
        exact hknows (Nat.lt_of_not_le htries)
  | readLock p =>
      simp only [hpc] at hstep
      split at hstep
      · rename_i hfree
        cases hstep
        have hfree := Option.isNone_iff_eq_none.mp hfree
        have hnot : t ∉ (s.pages p).shared := by
          rw [(h.readers t).shared p, Reader.holds, hpc]
          exact fun hc => by cases hc
        refine h.setShared ((h.pages p).readLock hfree hnot) ?_ ((h.readers t).readLock hpc)
        intro u hu
        simp [hu]
      · cases hstep
  | reading p log =>
      simp only [hpc] at hstep
      cases hstep
  | validate p log =>
      simp only [hpc] at hstep hmove hknows
      split at hstep
      · rename_i hseq
        cases hstep
        exact hmove _ rfl rfl fun _ => (h.pages p).oneState (hseq ▸ hknows.even)
          (hknows.agrees hseq)
      · cases hstep
        exact hmove _ rfl rfl fun hc => by cases hc
  | readUnlock p log =>
      simp only [hpc] at hstep
      cases hstep
      refine h.setShared (h.pages p).readUnlock ?_ ((h.readers t).readUnlock h.pages hpc)
      intro u hu
      exact List.mem_erase_of_ne hu
  | returned p log result =>
      simp only [hpc] at hstep hmove
      cases hstep
      exact hmove _ rfl rfl trivial

variable [DecidableEq ω]

/-- The invariant is kept by every step. -/
theorem Inv.step (h : s.Inv) {a : LockAction τ π ω ν} (hstep : s.step a = some s') : s'.Inv := by
  cases a with
  | writeLock t p =>
      change (if (s.pages p).writer.isNone ∧ (s.pages p).shared.isEmpty then _ else none) =
        some s' at hstep
      split at hstep
      · rename_i hfree
        cases hstep
        exact h.write ((h.pages p).writeLock (Option.isNone_iff_eq_none.mp hfree.1)
          (List.isEmpty_iff.mp hfree.2))
      · cases hstep
  | beginWrite t p =>
      change (if (s.pages p).writer = some (t, .locked) then _ else none) = some s' at hstep
      split at hstep
      · rename_i hwriter
        cases hstep
        exact h.write ((h.pages p).beginWrite hwriter)
      · cases hstep
  | store t p w v =>
      change (if (s.pages p).writer = some (t, .writing) then _ else none) = some s' at hstep
      split at hstep
      · rename_i hwriter
        cases hstep
        exact h.write ((h.pages p).store hwriter w v)
      · cases hstep
  | endWrite t p =>
      change (if (s.pages p).writer = some (t, .writing) then _ else none) = some s' at hstep
      split at hstep
      · rename_i hwriter
        cases hstep
        exact h.write ((h.pages p).endWrite hwriter)
      · cases hstep
  | writeUnlock t p =>
      change (if (s.pages p).writer = some (t, .unlocking) then _ else none) = some s' at hstep
      split at hstep
      · rename_i hwriter
        cases hstep
        exact h.write ((h.pages p).writeUnlock hwriter)
      · cases hstep
  | clear t =>
      simp only [VersionLocks.step] at hstep
      split at hstep
      · rename_i hpc
        cases hstep
        refine h.move ?_ rfl ?_
        · simp only [Reader.holds, hpc]
        · simp only [Reader.Knows, hpc]
      · cases hstep
  | lock t p =>
      simp only [VersionLocks.step] at hstep
      split at hstep
      · rename_i hpc
        cases hstep
        refine h.move ?_ rfl trivial
        simp only [Reader.holds, hpc]
      · cases hstep
  | load t w =>
      simp only [VersionLocks.step] at hstep
      split at hstep
      · rename_i p log hpc
        cases hstep
        refine h.move ?_ rfl ?_
        · simp only [Reader.holds, hpc]
        · have hknows := (h.readers t).knows
          simp only [Reader.Knows, hpc] at hknows ⊢
          split at hknows
          · rename_i htries
            rw [if_pos htries]
            exact hknows.cons w
          · rename_i htries
            rw [if_neg htries]
            exact hknows.cons w
      · cases hstep
  | unlock t =>
      simp only [VersionLocks.step] at hstep
      split at hstep
      · rename_i p log hpc
        have hknows := (h.readers t).knows
        simp only [Reader.Knows, hpc] at hknows
        split at hstep
        · rename_i htries
          cases hstep
          rw [if_pos htries] at hknows
          refine h.move ?_ rfl hknows
          simp only [Reader.holds, hpc]
          exact (if_pos htries).symm
        · rename_i htries
          cases hstep
          rw [if_neg htries] at hknows
          refine h.move ?_ rfl hknows
          simp only [Reader.holds, hpc]
          exact (if_neg htries).symm
      · cases hstep
  | run t => exact h.runNext hstep

theorem inv_reachable (hreach : (system τ π ω ν).Reachable s) : s.Inv :=
  hreach.invariant (fun _ => Inv.init) fun _ _ _ hs _ hstep => hs.step hstep

/-- What a thread may rely on: reads that `Unlock` confirms are of one page state; its
shared locks are taken one at a time and released on their page, none is left when it is
outside `Lock` and `Unlock`, and the mutexes it has are those. -/
structure UnlockConsistent (s : VersionLocks τ π ω ν) (t : τ) : Prop where
  atomic : ∀ p log, (s.threads t).pc = .returned p log true → (s.pages p).OneState log
  ordered : ∃ held, LockEvent.openLock (s.threads t).events = some held ∧
    ∀ p, t ∈ (s.pages p).shared ↔ held = some p
  released :
    (s.threads t).pc = .idle ∨ (∃ p log result, (s.threads t).pc = .returned p log result) →
    LockEvent.openLock (s.threads t).events = some none

/-- Every interleaving of writers and readers. -/
theorem unlock_consistent (hreach : (system τ π ω ν).Reachable s) (t : τ) :
    s.UnlockConsistent t := by
  have hinv := (inv_reachable hreach).readers t
  exact {
    atomic := by
      intro p log hpc
      have hknows := hinv.knows
      simp only [Reader.Knows, hpc] at hknows
      exact hknows trivial
    ordered := ⟨_, hinv.events, hinv.shared⟩
    released := by
      intro hpc
      rw [hinv.events]
      rcases hpc with hpc | ⟨p, log, result, hpc⟩
      · rw [Reader.holds, hpc]
      · rw [Reader.holds, hpc] }

/-- A thread meets a writer, falls back to the mutex and reads what the writer left. -/
theorem unlock_consistent_fallback :
    ∃ s : VersionLocks Nat Nat Nat Nat, (system Nat Nat Nat Nat).Reachable s ∧
      s.UnlockConsistent 1 ∧
      (s.threads 1).pc = .returned 0 [(3, 7)] true ∧ (s.threads 1).events =
        [.readUnlock 0, .readLock 0] := by
  let s₀ : VersionLocks Nat Nat Nat Nat :=
    ⟨fun _ => ⟨0, none, [], fun _ => 0, [fun _ => 0]⟩, fun _ => ⟨.idle, 0, 0, []⟩⟩
  let schedule : List (LockAction Nat Nat Nat Nat) :=
    [.writeLock 0 0, .beginWrite 0 0, .lock 1 0, .run 1, .store 0 0 3 7, .run 1,
      .endWrite 0 0, .run 1,
      .writeUnlock 0 0, .run 1, .load 1 3, .unlock 1, .run 1]
  have hinit : Init s₀ := ⟨fun _ => ⟨rfl, rfl, rfl, rfl⟩, fun _ => rfl⟩
  have hreach :
      (system Nat Nat Nat Nat).Reachable
      (((system Nat Nat Nat Nat).exec TSys.Always s₀ schedule).get rfl) :=
    ⟨s₀, hinit, .of_exec schedule (Option.some_get _).symm⟩
  exact ⟨_, hreach, unlock_consistent hreach 1, rfl, rfl⟩

end VersionLocks

end Db7
