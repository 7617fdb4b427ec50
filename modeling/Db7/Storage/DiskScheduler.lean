import Db7.Lib.TSys
import Db7.Storage.BufferPool
import Mathlib.Data.List.Nodup
import Mathlib.Data.List.Perm.Basic

/-!
# The disk scheduler

Threads enqueue tasks; one worker reaps completions, dequeues as many tasks as its budget allows,
puts them on the submission ring, and puts the rest of a batch back when the ring is full. The
kernel takes entries from the ring and completes each once, in any order.

* **the worker** (`DiskScheduler.work`): each call of the queue, of the ring and of a callback is
  one step;
* **places** (`Inv.tasks`): what was enqueued is in the places, each task once;
* **budget** (`Inv.inflight`, `Inv.budget`): `inflight_` counts the entries that were not reaped;
* **result** (`tasks_accounted`): both, in every reachable state.
-/

namespace Db7

open Lib

/-- `IoTask::Op`. -/
inductive IoOp
  | read
  | write
  deriving DecidableEq

/-- `IoTask`, without its priority, which nothing reads. -/
structure IoTask where
  op : IoOp
  page : Nat
  id : PageIdentifier
  deriving DecidableEq

/-- A task of one call of `Enqueue`. -/
structure QueuedTask where
  ticket : Nat
  task : IoTask
  deriving DecidableEq

/-- `IOURING_QUEUE_SIZE`, also `max_inflight_`. -/
def iouringQueueSize : UInt32 := 512

/-- Where the worker is. `final`: in the loop that drains on shutdown. -/
inductive WorkerPc
  | stopped
  | loop
  | drain
  | reap (reaped : Nat) (final : Bool)
  | pending
  | batch (submittedAny : Bool)
  | submit (submittedAny : Bool)
  | finish
  deriving DecidableEq

/-- The scheduler, the ring and the kernel: `prepared` are entries that were not submitted,
`submitted` those in the kernel, `ready` those whose completion can be reaped. -/
structure DiskScheduler where
  queue : List QueuedTask
  batch : List QueuedTask
  prepared : List QueuedTask
  submitted : List QueuedTask
  ready : List QueuedTask
  completed : List QueuedTask
  inflight : UInt32
  running : Bool
  pc : WorkerPc
  enqueued : List QueuedTask

/-- A step of the worker, with what the queue and the ring do in it. -/
inductive WorkerAction
  | go
  | dequeueBulk (taken rest : List QueuedTask)
  | submitTask (sqe : Bool)
  | submit (n : Nat)

/-- What threads, the owner, the kernel and the worker do. -/
inductive DiskAction
  | enqueue (task : IoTask)
  | start
  | stop
  | complete (i : Nat)
  | worker (action : WorkerAction)

namespace DiskScheduler

/-- `SubmitRead`: nothing when `io_uring_get_sqe` has no entry. -/
def submitRead (prepared : List QueuedTask) (t : QueuedTask) (sqe : Bool) :
    Option (List QueuedTask) :=
  if sqe then some (prepared ++ [t]) else none

/-- `SubmitWrite`. -/
def submitWrite (prepared : List QueuedTask) (t : QueuedTask) (sqe : Bool) :
    Option (List QueuedTask) :=
  if sqe then some (prepared ++ [t]) else none

/-- The slots of the next batch. -/
def slots (s : DiskScheduler) : UInt32 := min iouringQueueSize (iouringQueueSize - s.inflight)

/-- `ReapCompletions` returns. -/
def reapReturn (s : DiskScheduler) (reaped : Nat) (final : Bool) : DiskScheduler :=
  { s with
    inflight := s.inflight - UInt32.ofNat reaped
    pc := if final then .finish else .pending }

/-- One completion, or the end of `ReapCompletions`. -/
def reapStep (s : DiskScheduler) (reaped : Nat) (final : Bool) : DiskScheduler :=
  match s.ready with
  | [] => s.reapReturn reaped final
  | t :: ready =>
      let s := { s with ready := ready, completed := s.completed ++ [t] }
      if UInt32.ofNat (reaped + 1) ≥ iouringQueueSize then s.reapReturn (reaped + 1) final
      else { s with pc := .reap (reaped + 1) final }

/-- `Run`, `DrainCompletions` and `SubmitPending`. The sleep of an idle worker is no step. -/
def work (s : DiskScheduler) : WorkerAction → Option DiskScheduler
  | .go =>
      match s.pc with
      | .loop => some { s with pc := if s.running then .drain else .finish }
      | .drain => some { s with pc := if s.inflight > 0 then .reap 0 false else .pending }
      | .finish => some { s with pc := if s.inflight > 0 then .reap 0 true else .stopped }
      | .reap reaped final => some (s.reapStep reaped final)
      | .pending => if s.slots = 0 then some { s with pc := .loop } else none
      | .batch submittedAny => if s.batch = [] then some { s with pc := .submit submittedAny }
          else none
      | .submit false => some { s with pc := .loop }
      | .submit true | .stopped => none
  | .dequeueBulk taken rest =>
      if s.pc = .pending ∧ s.slots ≠ 0 ∧ (taken ++ rest).Perm s.queue ∧
        taken.length ≤ s.slots.toNat then
        some { s with queue := rest, batch := taken, pc := .batch false }
      else none
  | .submitTask sqe =>
      match s.pc, s.batch with
      | .batch submittedAny, t :: rest =>
          match (match t.task.op with
            | .read => submitRead s.prepared t sqe
            | .write => submitWrite s.prepared t sqe) with
          | some prepared =>
              some { s with
                prepared := prepared
                batch := rest
                inflight := s.inflight + 1
                pc := .batch true }
          | none =>
              some { s with queue := s.queue ++ t :: rest, batch := [], pc := .submit submittedAny }
      | _, _ => none
  | .submit n =>
      if s.pc = .submit true then
        some { s with
          submitted := s.submitted ++ s.prepared.take n
          prepared := s.prepared.drop n
          pc := .loop }
      else none

def step (s : DiskScheduler) : DiskAction → Option DiskScheduler
  | .enqueue task =>
      some { s with
        queue := s.queue ++ [⟨s.enqueued.length, task⟩]
        enqueued := s.enqueued ++ [⟨s.enqueued.length, task⟩] }
  | .start => if s.pc = .stopped then some { s with running := true, pc := .loop } else none
  | .stop => some { s with running := false }
  | .complete i =>
      match s.submitted[i]? with
      | some t => some { s with submitted := s.submitted.eraseIdx i, ready := s.ready ++ [t] }
      | none => none
  | .worker action => s.work action

/-- Before `Start`. -/
def initial : DiskScheduler := ⟨[], [], [], [], [], [], 0, false, .stopped, []⟩

/-- The scheduler with all that runs beside it. -/
def system : TSys DiskScheduler DiskAction := ⟨fun s => s = initial, step⟩

/-! ## What every step keeps -/

end DiskScheduler

/-- Entries that the running `ReapCompletions` has reaped. -/
def WorkerPc.reaped : WorkerPc → Nat
  | .reap reaped _ => reaped
  | _ => 0

def WorkerPc.inBatch : WorkerPc → Bool
  | .batch _ => true
  | _ => false

namespace DiskScheduler

/-- Entries on the ring: not submitted, in the kernel, or not reaped. -/
def ring (s : DiskScheduler) : List QueuedTask := s.prepared ++ (s.submitted ++ s.ready)

/-- In how many places a task is. -/
def placed (s : DiskScheduler) (t : QueuedTask) : Nat :=
  s.queue.count t + s.batch.count t + s.ring.count t + s.completed.count t

structure Inv (s : DiskScheduler) : Prop where
  tasks : ∀ t, s.placed t = s.enqueued.count t
  tickets : s.enqueued.map QueuedTask.ticket = List.range s.enqueued.length
  inflight : s.inflight.toNat = s.ring.length + s.pc.reaped
  budget : s.inflight.toNat + s.batch.length ≤ iouringQueueSize.toNat
  batch : s.pc.inBatch = false → s.batch = []

theorem inv_initial : initial.Inv where
  tasks _ := rfl
  tickets := rfl
  inflight := rfl
  budget := Nat.zero_le _
  batch _ := rfl

section Steps

variable {s s' : DiskScheduler}

/-- A task is in as many places where lists of the same tasks are. -/
theorem placed_eq (s : DiskScheduler) (t : QueuedTask) :
    s.placed t = s.queue.count t + s.batch.count t +
    (s.prepared.count t + (s.submitted.count t + s.ready.count t)) + s.completed.count t := by
  unfold placed ring
  rw [List.count_append, List.count_append]

theorem length_ring (s : DiskScheduler) :
    s.ring.length = s.prepared.length + (s.submitted.length + s.ready.length) := by
  unfold ring
  rw [List.length_append, List.length_append]

/-- The worker goes on, with no list changed. -/
theorem Inv.goto (h : s.Inv) (running : Bool) (pc : WorkerPc) (hreaped : pc.reaped = s.pc.reaped)
    (hbatch : pc.inBatch = false → s.batch = []) : Inv { s with running := running, pc := pc } where
  tasks := h.tasks
  tickets := h.tickets
  inflight := by
    show s.inflight.toNat = s.ring.length + pc.reaped
    rw [hreaped]
    exact h.inflight
  budget := h.budget
  batch := hbatch

theorem Inv.enqueue (h : s.Inv) (task : IoTask) (hs : s.step (.enqueue task) = some s') :
    s'.Inv := by
  cases hs
  refine ⟨fun t => ?_, ?_, h.inflight, h.budget, h.batch⟩
  · have htasks := h.tasks t
    rw [placed_eq] at htasks ⊢
    dsimp only
    rw [List.count_append, List.count_append]
    omega
  · show (s.enqueued ++ [_]).map QueuedTask.ticket = List.range (s.enqueued ++ [_]).length
    rw [List.map_append, h.tickets, List.length_append, List.length_singleton, List.range_succ]
    rfl

theorem Inv.complete (h : s.Inv) (i : Nat) (hs : s.step (.complete i) = some s') : s'.Inv := by
  unfold step at hs
  dsimp only at hs
  cases hget : s.submitted[i]? with
  | none =>
      rw [hget] at hs
      cases hs
  | some t₀ =>
      rw [hget] at hs
      cases hs
      obtain ⟨hi, rfl⟩ := List.getElem?_eq_some_iff.mp hget
      have hperm := List.getElem_cons_eraseIdx_perm hi
      refine ⟨fun t => ?_, h.tickets, ?_, h.budget, h.batch⟩
      · have htasks := h.tasks t
        have hcount := hperm.count_eq t
        rw [List.count_cons] at hcount
        rw [placed_eq] at htasks ⊢
        dsimp only
        rw [List.count_append, List.count_singleton]
        omega
      · have hring := h.inflight
        have hlength := hperm.length_eq
        rw [length_ring] at hring ⊢
        dsimp only
        rw [List.length_append, List.length_singleton]
        rw [List.length_cons] at hlength
        omega

/-- `ReapCompletions` returns no more than was in flight. -/
theorem Inv.reapReturn (h : s.Inv) {reaped : Nat} {final : Bool} (hpc : s.pc = .reap reaped final) :
    (s.reapReturn reaped final).Inv := by
  have hinflight := h.inflight
  have hbudget := h.budget
  have hreaped : s.pc.reaped = reaped := by rw [hpc]; rfl
  have hmax : iouringQueueSize.toNat = 512 := rfl
  have hvalue : (UInt32.ofNat reaped).toNat = reaped :=
    UInt32.toNat_ofNat_of_lt' (by show _ < 2 ^ 32; omega)
  have hsub : (s.inflight - UInt32.ofNat reaped).toNat = s.inflight.toNat - reaped := by
    rw [UInt32.toNat_sub_of_le, hvalue]
    exact UInt32.le_iff_toNat_le.mpr (by omega)
  refine ⟨h.tasks, h.tickets, ?_, ?_, fun _ => h.batch (by rw [hpc]; rfl)⟩
  · have hpc' : (s.reapReturn reaped final).pc.reaped = 0 := by
      unfold DiskScheduler.reapReturn
      cases final <;> rfl
    rw [hpc']
    show (s.inflight - UInt32.ofNat reaped).toNat = s.ring.length + 0
    omega
  · show (s.inflight - UInt32.ofNat reaped).toNat + s.batch.length ≤ _
    omega

theorem Inv.reapStep (h : s.Inv) {reaped : Nat} {final : Bool} (hpc : s.pc = .reap reaped final) :
    (s.reapStep reaped final).Inv := by
  unfold DiskScheduler.reapStep
  cases hready : s.ready with
  | nil => exact h.reapReturn hpc
  | cons t₀ ready =>
      have hnext : Inv { s with
          ready := ready
          completed := s.completed ++ [t₀]
          pc := .reap (reaped + 1) final } := by
        refine ⟨fun t => ?_, h.tickets, ?_, h.budget, fun _ => h.batch (by rw [hpc]; rfl)⟩
        · have htasks := h.tasks t
          rw [placed_eq, hready, List.count_cons] at htasks
          rw [placed_eq]
          dsimp only
          rw [List.count_append, List.count_singleton]
          omega
        · have hring := h.inflight
          rw [length_ring, hready, List.length_cons, hpc] at hring
          rw [length_ring]
          change _ = _ + reaped at hring
          show s.inflight.toNat =
            s.prepared.length + (s.submitted.length + ready.length) + (reaped + 1)
          omega
      dsimp only
      split
      · exact hnext.reapReturn rfl
      · exact hnext

theorem Inv.go (h : s.Inv) (hs : s.work .go = some s') : s'.Inv := by
  unfold work at hs
  dsimp only at hs
  cases hpc : s.pc with
  | loop =>
      rw [hpc] at hs
      cases hs
      exact h.goto s.running _ (by rw [hpc]; cases s.running <;> rfl) fun _ =>
        h.batch (by rw [hpc]; rfl)
  | drain =>
      rw [hpc] at hs
      cases hs
      exact h.goto s.running _ (by rw [hpc]; split <;> rfl) fun _ => h.batch (by rw [hpc]; rfl)
  | finish =>
      rw [hpc] at hs
      cases hs
      exact h.goto s.running _ (by rw [hpc]; split <;> rfl) fun _ => h.batch (by rw [hpc]; rfl)
  | reap reaped final =>
      rw [hpc] at hs
      cases hs
      exact h.reapStep hpc
  | pending =>
      rw [hpc] at hs
      obtain ⟨-, rfl⟩ := Option.ite_some_none_eq_some.mp hs
      exact h.goto s.running _ (by rw [hpc]; rfl) fun _ => h.batch (by rw [hpc]; rfl)
  | batch submittedAny =>
      rw [hpc] at hs
      obtain ⟨hempty, rfl⟩ := Option.ite_some_none_eq_some.mp hs
      exact h.goto s.running _ (by rw [hpc]; rfl) fun _ => hempty
  | submit submittedAny =>
      rw [hpc] at hs
      cases submittedAny with
      | false =>
          cases hs
          exact h.goto s.running _ (by rw [hpc]; rfl) fun _ => h.batch (by rw [hpc]; rfl)
      | true => cases hs
  | stopped =>
      rw [hpc] at hs
      cases hs

/-- The budget of a batch. -/
theorem Inv.toNat_slots (h : s.Inv) :
    s.slots.toNat ≤ iouringQueueSize.toNat - s.inflight.toNat := by
  have hbudget := h.budget
  have hle : s.inflight ≤ iouringQueueSize := UInt32.le_iff_toNat_le.mpr (by omega)
  have hsub : (iouringQueueSize - s.inflight).toNat = iouringQueueSize.toNat - s.inflight.toNat :=
    UInt32.toNat_sub_of_le _ _ hle
  have hmin : s.slots ≤ iouringQueueSize - s.inflight := by
    show (if iouringQueueSize ≤ iouringQueueSize - s.inflight then iouringQueueSize
      else iouringQueueSize - s.inflight) ≤ _
    split
    · assumption
    · exact UInt32.le_refl _
  rw [← hsub]
  exact UInt32.le_iff_toNat_le.mp hmin

theorem Inv.dequeueBulk (h : s.Inv) (taken rest : List QueuedTask)
    (hs : s.work (.dequeueBulk taken rest) = some s') :
    s'.Inv := by
  obtain ⟨⟨hpc, -, hperm, hslots⟩, rfl⟩ := Option.ite_some_none_eq_some.mp hs
  have hempty := h.batch (by rw [hpc]; rfl)
  refine ⟨fun t => ?_, h.tickets, ?_, ?_, fun hc => nomatch hc⟩
  · have htasks := h.tasks t
    have hcount := hperm.count_eq t
    rw [List.count_append] at hcount
    rw [placed_eq, hempty, List.count_nil] at htasks
    rw [placed_eq]
    dsimp only
    omega
  · have hinflight := h.inflight
    rw [hpc] at hinflight
    exact hinflight
  · have hbudget := h.budget
    have hmax := h.toNat_slots
    dsimp only
    omega

theorem Inv.submitTask (h : s.Inv) (sqe : Bool) (hs : s.work (.submitTask sqe) = some s') :
    s'.Inv := by
  unfold work at hs
  dsimp only at hs
  cases hpc : s.pc with
  | batch submittedAny =>
      cases hbatch : s.batch with
      | nil =>
          rw [hpc, hbatch] at hs
          cases hs
      | cons t₀ rest =>
          rw [hpc, hbatch] at hs
          dsimp only at hs
          have hsubmit : (match t₀.task.op with
              | .read => submitRead s.prepared t₀ sqe
              | .write => submitWrite s.prepared t₀ sqe) = if sqe then some (s.prepared ++ [t₀])
                  else none := by
            cases t₀.task.op <;> rfl
          rw [hsubmit] at hs
          have hbudget := h.budget
          have hinflight := h.inflight
          rw [hbatch, List.length_cons] at hbudget
          have hmax : iouringQueueSize.toNat = 512 := rfl
          cases sqe with
          | true =>
              cases hs
              have hsucc : (s.inflight + 1).toNat = s.inflight.toNat + 1 := by
                rw [UInt32.toNat_add]
                exact Nat.mod_eq_of_lt (by show s.inflight.toNat + 1 < 2 ^ 32; omega)
              refine ⟨fun t => ?_, h.tickets, ?_, ?_, fun hc => nomatch hc⟩
              · have htasks := h.tasks t
                rw [placed_eq, hbatch, List.count_cons] at htasks
                rw [placed_eq]
                dsimp only
                rw [List.count_append, List.count_singleton]
                omega
              · rw [length_ring] at hinflight ⊢
                rw [hpc] at hinflight
                change _ = _ + 0 at hinflight
                show (s.inflight + 1).toNat =
                  (s.prepared ++ [t₀]).length + (s.submitted.length + s.ready.length) + 0
                rw [List.length_append, List.length_singleton]
                omega
              · dsimp only
                omega
          | false =>
              cases hs
              refine ⟨fun t => ?_, h.tickets, ?_, ?_, fun _ => rfl⟩
              · have htasks := h.tasks t
                rw [placed_eq, hbatch] at htasks
                rw [placed_eq]
                dsimp only
                rw [List.count_append, List.count_nil]
                omega
              · rw [hpc] at hinflight
                exact hinflight
              · show s.inflight.toNat + 0 ≤ _
                omega
  | stopped | loop | drain | reap reaped final | pending | submit submittedAny | finish =>
      rw [hpc] at hs
      cases hs

theorem Inv.submit (h : s.Inv) (n : Nat) (hs : s.work (.submit n) = some s') : s'.Inv := by
  obtain ⟨hpc, rfl⟩ := Option.ite_some_none_eq_some.mp hs
  have hsplit : s.prepared.take n ++ s.prepared.drop n = s.prepared := List.take_append_drop n _
  refine ⟨fun t => ?_, h.tickets, ?_, h.budget, fun _ => h.batch (by rw [hpc]; rfl)⟩
  · have htasks := h.tasks t
    have hcount := congrArg (List.count t) hsplit
    rw [List.count_append] at hcount
    rw [placed_eq] at htasks ⊢
    dsimp only
    rw [List.count_append]
    omega
  · have hinflight := h.inflight
    have hlength := congrArg List.length hsplit
    rw [List.length_append] at hlength
    rw [length_ring, hpc] at hinflight
    rw [length_ring]
    change _ = _ + 0 at hinflight
    show s.inflight.toNat =
      (s.prepared.drop n).length + ((s.submitted ++ s.prepared.take n).length + s.ready.length) + 0
    rw [List.length_append]
    omega

theorem Inv.step (h : s.Inv) (a : DiskAction) (hs : s.step a = some s') : s'.Inv := by
  cases a with
  | enqueue task => exact h.enqueue task hs
  | start =>
      obtain ⟨hpc, rfl⟩ := Option.ite_some_none_eq_some.mp hs
      exact h.goto true .loop (by rw [hpc]; rfl) fun _ => h.batch (by rw [hpc]; rfl)
  | stop =>
      cases hs
      exact h.goto false s.pc rfl h.batch
  | complete i => exact h.complete i hs
  | worker action =>
      cases action with
      | go => exact h.go hs
      | dequeueBulk taken rest => exact h.dequeueBulk taken rest hs
      | submitTask sqe => exact h.submitTask sqe hs
      | submit n => exact h.submit n hs

end Steps

/-! ## Accounts -/

/-- Every enqueued task is in one place, once, and nothing else is in any. `inflight_` counts the
entries of the ring, with those that the running `ReapCompletions` has reaped and not returned yet;
what this subtracts is no more, and the budget is kept. -/
structure Accounted (s : DiskScheduler) : Prop where
  once : ∀ t ∈ s.enqueued,
    s.queue.count t + s.batch.count t + s.ring.count t + s.completed.count t = 1
  nothingElse : ∀ t, t ∉ s.enqueued → t ∉ s.queue ∧ t ∉ s.batch ∧ t ∉ s.ring ∧ t ∉ s.completed
  inflight : s.inflight.toNat = s.ring.length + s.pc.reaped
  noUnderflow : s.pc.reaped ≤ s.inflight.toNat
  budget : s.inflight ≤ iouringQueueSize

theorem Inv.accounted {s : DiskScheduler} (h : s.Inv) : s.Accounted where
  once t ht := by
    have hnodup : s.enqueued.Nodup := by
      refine List.Nodup.of_map QueuedTask.ticket ?_
      rw [h.tickets]
      exact List.nodup_range
    exact (h.tasks t).trans (List.count_eq_one_of_mem hnodup ht)
  nothingElse t ht := by
    have htasks := h.tasks t
    unfold placed at htasks
    rw [List.count_eq_zero_of_not_mem ht] at htasks
    refine ⟨?_, ?_, ?_, ?_⟩ <;> refine List.count_eq_zero.mp ?_ <;> omega
  inflight := h.inflight
  noUnderflow := by
    rw [h.inflight]
    exact Nat.le_add_left _ _
  budget := UInt32.le_iff_toNat_le.mpr (Nat.le_trans (Nat.le_add_right _ _) h.budget)

/-- **In every reachable state every task is in one place, and `inflight_` counts the entries that
were submitted and not reaped.** -/
theorem tasks_accounted (s : DiskScheduler) (h : system.Reachable s) : s.Accounted := by
  have hinv : s.Inv := h.invariant (fun s hs => by rw [show s = initial from hs]; exact inv_initial)
    fun s a s' hinv _ hstep => hinv.step a hstep
  exact hinv.accounted

/-- Four tasks, then a fifth while the worker has three of them in its batch. The ring takes the
first two; the third and what would follow it go back behind the fifth. The kernel completes the
second before the first, both are reaped, and the next batch gets a task onto the ring. -/
def cutBatch : List DiskAction :=
  let t : Nat → IoTask := fun i => ⟨if i = 2 then .write else .read, i, ⟨1, i⟩⟩
  let q : Nat → QueuedTask := fun i => ⟨i, t i⟩
  [.enqueue (t 0), .enqueue (t 1), .enqueue (t 2), .enqueue (t 3), .start, .worker .go, .worker .go,
    .worker (.dequeueBulk [q 0, q 1, q 2, q 3] []), .worker (.submitTask true), .enqueue (t 4),
    .worker (.submitTask true), .worker (.submitTask false), .worker (.submit 2), .complete 1,
    .complete 0, .worker .go, .worker .go, .worker .go, .worker .go, .worker .go,
    .worker (.dequeueBulk [q 4, q 2] [q 3]), .worker (.submitTask true)]

theorem tasks_accounted_cutBatch : ∃ s, system.Reachable s ∧
    s.completed.map QueuedTask.ticket = [1, 0] ∧ s.ring.map QueuedTask.ticket = [4] ∧
    s.batch.map QueuedTask.ticket = [2] ∧ s.queue.map QueuedTask.ticket = [3] ∧ s.inflight = 1 ∧
    s.Accounted := by
  obtain ⟨s, hexec⟩ : ∃ s, system.exec TSys.Always initial cutBatch = some s :=
    Option.isSome_iff_exists.mp (by decide +kernel)
  have hreach : system.Reachable s := ⟨initial, rfl, .of_exec _ hexec⟩
  have hrun : (system.exec TSys.Always initial cutBatch).map (fun s =>
      (s.completed.map QueuedTask.ticket, s.ring.map QueuedTask.ticket,
        s.batch.map QueuedTask.ticket, s.queue.map QueuedTask.ticket, s.inflight)) =
      some ([1, 0], [4], [2], [3], 1) := by decide +kernel
  rw [hexec, Option.map_some, Option.some.injEq] at hrun
  simp only [Prod.mk.injEq] at hrun
  obtain ⟨hcompleted, hring, hbatch, hqueue, hinflight⟩ := hrun
  exact ⟨s, hreach, hcompleted, hring, hbatch, hqueue, hinflight, tasks_accounted s hreach⟩

end DiskScheduler

end Db7
