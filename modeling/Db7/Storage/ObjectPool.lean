import Db7.Lib.Runs
import Mathlib.Data.List.Basic
import Mathlib.Tactic.Basic

/-!
# The object pool

`shared::ObjectPool` keeps released objects in a queue and hands them out again. `curr_size_` is
to count the objects that it controls; `Release` adds one for an object that goes to the queue and
was counted already.

* **the pool** (`get`, `release`), with objects named in the order of their creation;
* **its callers** (`PoolCallers`), who release what they were handed out;
* **result** (`counts_iff`): the count is kept exactly as long as `Release` deletes.
-/

namespace Db7

open Lib

/-- `shared::ObjectPool`; `created` is the name of the next object. -/
structure ObjectPool where
  queue : List Nat
  sizeLimit : UInt32
  reuseLimit : UInt32
  currSize : UInt32
  created : Nat

namespace ObjectPool

def empty (sizeLimit reuseLimit : UInt32) : ObjectPool := ⟨[], sizeLimit, reuseLimit, 0, 0⟩

/-- `Get`, with whether the object is new. The count is taken back before the throw. -/
def get (p : ObjectPool) : Except String (Nat × Bool × ObjectPool) :=
  match p.queue with
  | obj :: queue => .ok (obj, false, { p with queue := queue })
  | [] =>
      if p.currSize ≥ p.sizeLimit then .error "No more objects in the pool"
      else .ok (p.created, true, { p with currSize := p.currSize + 1, created := p.created + 1 })

/-- `Release`. -/
def release (p : ObjectPool) (obj : Nat) : ObjectPool :=
  if p.currSize ≥ p.reuseLimit then { p with currSize := p.currSize - 1 }
  else { p with currSize := p.currSize + 1, queue := p.queue ++ [obj] }

section Limits

variable {p p' : ObjectPool} {obj : Nat} {isNew : Bool}

/-- What `Get` hands out. -/
theorem get_cases (h : p.get = .ok (obj, isNew, p')) :
    (∃ queue, p.queue = obj :: queue ∧ isNew = false ∧ p' = { p with queue := queue }) ∨
      p.queue = [] ∧ p.currSize < p.sizeLimit ∧ obj = p.created ∧ isNew = true ∧
        p' = { p with currSize := p.currSize + 1, created := p.created + 1 } := by
  unfold get at h
  cases hqueue : p.queue with
  | cons obj' queue =>
      rw [hqueue] at h
      cases h
      exact .inl ⟨queue, rfl, rfl, rfl⟩
  | nil =>
      rw [hqueue] at h
      dsimp only at h
      split at h
      · cases h
      · rename_i hlt
        cases h
        exact .inr ⟨rfl, UInt32.not_le.mp hlt, rfl, rfl, rfl⟩

theorem get_error {message : String} (h : p.get = .error message) :
    p.queue = [] ∧ p.sizeLimit ≤ p.currSize := by
  unfold get at h
  cases hqueue : p.queue with
  | cons obj' queue =>
      rw [hqueue] at h
      cases h
  | nil =>
      rw [hqueue] at h
      dsimp only at h
      split at h
      · exact ⟨rfl, ‹_›⟩
      · cases h

/-- Below a limit the count does not wrap. -/
theorem toNat_succ {n limit : UInt32} (h : n < limit) : (n + 1).toNat = n.toNat + 1 := by
  have hlt : n.toNat < limit.toNat := UInt32.lt_iff_toNat_lt.mp h
  have hmax := limit.toNat_lt
  rw [UInt32.toNat_add]
  exact Nat.mod_eq_of_lt (by show n.toNat + 1 < 2 ^ 32; omega)

theorem toNat_pred {n : UInt32} (h : 0 < n.toNat) : (n - 1).toNat = n.toNat - 1 := by
  rw [UInt32.toNat_sub_of_le]
  · rfl
  · exact UInt32.le_iff_toNat_le.mpr h

end Limits

end ObjectPool

/-- A call of the pool. -/
inductive ObjectPoolCall
  | get
  | release (obj : Nat)

/-- The pool, and the objects that it has handed out. -/
structure PoolCallers where
  pool : ObjectPool
  handedOut : List Nat

namespace PoolCallers

def initial (sizeLimit reuseLimit : UInt32) : PoolCallers := ⟨.empty sizeLimit reuseLimit, []⟩

/-- A throwing `Get` leaves everything as it was. Only what was handed out is released. -/
def step (s : PoolCallers) : ObjectPoolCall → PoolCallers
  | .get =>
      match s.pool.get with
      | .ok (obj, _, pool) => ⟨pool, obj :: s.handedOut⟩
      | .error _ => s
  | .release obj =>
      if s.handedOut.contains obj then ⟨s.pool.release obj, s.handedOut.erase obj⟩ else s

/-- The count is that of the objects handed out and queued, both limits hold, and `Get` throws
only when as many as the limit allows are handed out. -/
structure Counts (s : PoolCallers) : Prop where
  currSize : s.pool.currSize.toNat = s.handedOut.length + s.pool.queue.length
  reuse : s.pool.queue.length ≤ s.pool.reuseLimit.toNat
  size : s.handedOut.length + s.pool.queue.length ≤ s.pool.sizeLimit.toNat
  throws : ∀ message, s.pool.get = .error message → s.handedOut.length = s.pool.sizeLimit.toNat

/-- An object that is released is deleted: the count has reached `reuse_limit_`. -/
def Deletes (s : PoolCallers) : ObjectPoolCall → Prop
  | .get => True
  | .release obj => s.handedOut.contains obj → s.pool.reuseLimit ≤ s.pool.currSize

/-- The count, while nothing has gone to the queue. -/
structure Unqueued (s : PoolCallers) : Prop where
  queue : s.pool.queue = []
  currSize : s.pool.currSize.toNat = s.handedOut.length
  size : s.handedOut.length ≤ s.pool.sizeLimit.toNat

theorem Unqueued.counts {s : PoolCallers} (h : s.Unqueued) : s.Counts where
  currSize := by rw [h.queue, h.currSize]; rfl
  reuse := by rw [h.queue]; exact Nat.zero_le _
  size := by rw [h.queue]; exact h.size
  throws _ hget := by
    have hle := UInt32.le_iff_toNat_le.mp (ObjectPool.get_error hget).2
    have hcount := h.currSize
    have hsize := h.size
    omega

theorem Unqueued.step {s : PoolCallers} {c : ObjectPoolCall} (h : s.Unqueued) (hc : s.Deletes c) :
    (s.step c).Unqueued := by
  cases c with
  | get =>
      unfold PoolCallers.step
      cases hget : s.pool.get with
      | error message => exact h
      | ok result =>
          obtain ⟨obj, isNew, pool⟩ := result
          rcases ObjectPool.get_cases hget with ⟨queue, hqueue, -, -⟩ | ⟨hqueue, hlt, -, -, rfl⟩
          · rw [h.queue] at hqueue
            cases hqueue
          · have hsucc := ObjectPool.toNat_succ hlt
            have hcount := h.currSize
            have hle := UInt32.lt_iff_toNat_lt.mp hlt
            refine ⟨hqueue, ?_, ?_⟩
            · show (s.pool.currSize + 1).toNat = s.handedOut.length + 1
              omega
            · show s.handedOut.length + 1 ≤ s.pool.sizeLimit.toNat
              omega
  | release obj =>
      unfold PoolCallers.step
      dsimp only
      split
      · rename_i hmem
        have hdelete : s.pool.release obj = { s.pool with currSize := s.pool.currSize - 1 } :=
          if_pos (hc hmem)
        have hlen := List.length_erase_of_mem (List.contains_iff_mem.mp hmem)
        have hpos := List.length_pos_of_mem (List.contains_iff_mem.mp hmem)
        have hcount := h.currSize
        have hpred := ObjectPool.toNat_pred (n := s.pool.currSize) (by omega)
        have hsize := h.size
        rw [hdelete]
        refine ⟨h.queue, ?_, ?_⟩
        · show (s.pool.currSize - 1).toNat = (s.handedOut.erase obj).length
          omega
        · show (s.handedOut.erase obj).length ≤ s.pool.sizeLimit.toNat
          omega
      · exact h

/-- Where `Release` queues an object, it is counted twice. -/
theorem Unqueued.deletes {s : PoolCallers} {c : ObjectPoolCall} (h : s.Unqueued)
    (hcounts : (s.step c).Counts) :
    s.Deletes c := by
  cases c with
  | get => trivial
  | release obj =>
      intro hmem
      by_contra hqueue
      have hstep : s.step (.release obj) = ⟨s.pool.release obj, s.handedOut.erase obj⟩ :=
        if_pos hmem
      have hrelease : s.pool.release obj =
          { s.pool with currSize := s.pool.currSize + 1, queue := s.pool.queue ++ [obj] } :=
            if_neg hqueue
      have hlen := List.length_erase_of_mem (List.contains_iff_mem.mp hmem)
      have hpos := List.length_pos_of_mem (List.contains_iff_mem.mp hmem)
      have hsucc := ObjectPool.toNat_succ (UInt32.not_le.mp hqueue)
      have hcount := h.currSize
      have hsum := hcounts.currSize
      rw [hstep, hrelease] at hsum
      change (s.pool.currSize + 1).toNat =
        (s.handedOut.erase obj).length + (s.pool.queue ++ [obj]).length at hsum
      rw [h.queue, List.nil_append, List.length_singleton] at hsum
      omega

theorem unqueued_initial (sizeLimit reuseLimit : UInt32) :
    (initial sizeLimit reuseLimit).Unqueued :=
  ⟨rfl, rfl, Nat.zero_le _⟩

/-- **The pool counts its objects in every state of a run exactly when every object that is released
in it is deleted.** -/
theorem counts_iff (sizeLimit reuseLimit : UInt32) (calls : List ObjectPoolCall) :
    (∀ x ∈ runSteps step (initial sizeLimit reuseLimit) calls, (x.1.step x.2).Counts) ↔
      ∀ x ∈ runSteps step (initial sizeLimit reuseLimit) calls, x.1.Deletes x.2 :=
  forall_runSteps_iff (P := fun s c => (s.step c).Counts)
    (fun _ _ h hc => ⟨(h.step hc).counts, h.step hc⟩)
    (fun _ _ h hcounts => h.deletes hcounts) (unqueued_initial sizeLimit reuseLimit) calls

/-- One object is handed out and released: the count is 2. -/
theorem counted_twice : ¬∀ (sizeLimit reuseLimit : UInt32) (calls : List ObjectPoolCall),
    ∀ x ∈ runSteps step (initial sizeLimit reuseLimit) calls, (x.1.step x.2).Counts := by
  intro hall
  have hcounts := hall 2 2 [.get, .release 0] ((initial 2 2).step .get, .release 0)
    (List.mem_cons_of_mem _ List.mem_cons_self)
  exact absurd hcounts.currSize (by decide)

end PoolCallers

end Db7
