import Db7.Storage.ObjectPool
import Db7.Storage.RedoBuffer

/-!
# Arenas that are used again

A transaction context takes segments from one pool: its redo buffer one when it is created, its undo
buffer one whenever the last has no space left. They are given back when the context is destroyed.
Nothing calls `FixedBumpArena::Reset`, so a segment that comes from the queue is as full as it was.

* **contexts** (`UndoArenas`): the live contexts over one pool, with the undo records of each;
* **layout** (`Laid`): a segment has one owner, and the records of an undo buffer fill its segments
  from offset 0 to their size;
* **result** (`entries_served_iff`): records are found a place, apart from all others, in segments
  of their own, exactly as long as the pool hands out empty segments, and throws only when all are
  in use.
-/

namespace Db7

open Lib Function

/-! ## Objects in use -/

namespace PoolCallers

/-- Every object has one name, and is in use once. -/
structure Named (c : PoolCallers) : Prop where
  nodup : (c.handedOut ++ c.pool.queue).Nodup
  created : ∀ obj ∈ c.handedOut ++ c.pool.queue, obj < c.pool.created

theorem named_initial (sizeLimit reuseLimit : UInt32) : (initial sizeLimit reuseLimit).Named where
  nodup := List.nodup_nil
  created _ h := absurd h List.not_mem_nil

section Calls

variable {c : PoolCallers} {obj : Nat}

/-- What `Get` hands out was nobody's. -/
theorem Named.get (h : c.Named) {isNew : Bool} {pool : ObjectPool}
    (hget : c.pool.get = .ok (obj, isNew, pool)) :
    Named ⟨pool, obj :: c.handedOut⟩ ∧ obj ∉ c.handedOut := by
  have hnodup := h.nodup
  rcases ObjectPool.get_cases hget with ⟨queue, hqueue, -, rfl⟩ | ⟨hqueue, -, rfl, -, rfl⟩
  · have hperm : (c.handedOut ++ c.pool.queue).Perm (obj :: c.handedOut ++ queue) := by
      rw [hqueue]
      exact List.perm_middle
    have hmoved := hperm.nodup_iff.mp hnodup
    refine ⟨⟨hmoved, fun x hx => h.created x (hperm.mem_iff.mpr hx)⟩, fun hmem => ?_⟩
    exact (List.nodup_cons.mp hmoved).1 (List.mem_append_left _ hmem)
  · have hnew : c.pool.created ∉ c.handedOut ++ c.pool.queue := fun hmem =>
      Nat.lt_irrefl _ (h.created _ hmem)
    refine ⟨⟨List.nodup_cons.mpr ⟨hnew, hnodup⟩, fun x hx => ?_⟩,
      fun hmem => hnew (List.mem_append_left _ hmem)⟩
    rcases List.mem_cons.mp hx with rfl | hx
    · exact Nat.lt_succ_self _
    · exact Nat.lt_succ_of_lt (h.created x hx)

/-- A released object is deleted, or goes to the queue. -/
theorem release_cases (hmem : obj ∈ c.handedOut) :
    (c.step (.release obj)).handedOut = c.handedOut.erase obj ∧
      (c.step (.release obj)).pool.created = c.pool.created ∧
      ((c.step (.release obj)).pool.queue = c.pool.queue ∨
        (c.step (.release obj)).pool.queue = c.pool.queue ++ [obj]) := by
  have hstep : c.step (.release obj) = ⟨c.pool.release obj, c.handedOut.erase obj⟩ :=
    if_pos (List.contains_iff_mem.mpr hmem)
  rw [hstep]
  unfold ObjectPool.release
  split
  · exact ⟨rfl, rfl, .inl rfl⟩
  · exact ⟨rfl, rfl, .inr rfl⟩

theorem Named.release (h : c.Named) (hmem : obj ∈ c.handedOut) :
    (c.step (.release obj)).Named := by
  obtain ⟨hout, hcreated, hqueue⟩ := release_cases hmem
  have hperm : (c.handedOut ++ c.pool.queue).Perm
      (obj :: (c.handedOut.erase obj ++ c.pool.queue)) :=
    (List.perm_cons_erase hmem).append_right _
  rcases hqueue with hqueue | hqueue
  · constructor
    · rw [hout, hqueue]
      exact (List.nodup_cons.mp (hperm.nodup_iff.mp h.nodup)).2
    · intro x hx
      rw [hout, hqueue] at hx
      rw [hcreated]
      exact h.created x (hperm.mem_iff.mpr (List.mem_cons_of_mem _ hx))
  · have hmove : (c.handedOut ++ c.pool.queue).Perm
        (c.handedOut.erase obj ++ (c.pool.queue ++ [obj])) := by
      rw [← List.append_assoc]
      exact hperm.trans (List.perm_append_singleton obj _).symm
    constructor
    · rw [hout, hqueue]
      exact hmove.nodup_iff.mp h.nodup
    · intro x hx
      rw [hout, hqueue] at hx
      rw [hcreated]
      exact h.created x (hmove.mem_iff.mpr hx)

/-- All objects of a list are released, from its end on. -/
theorem Named.releases (h : c.Named) {objs : List Nat} (hnodup : objs.Nodup)
    (hmem : ∀ obj ∈ objs, obj ∈ c.handedOut) :
    (objs.foldr (fun obj c => c.step (.release obj)) c).Named ∧
      ∀ x, x ∈ (objs.foldr (fun obj c => c.step (.release obj)) c).handedOut ↔
        x ∈ c.handedOut ∧ x ∉ objs := by
  induction objs with
  | nil => exact ⟨h, fun x => ⟨fun hx => ⟨hx, List.not_mem_nil⟩, And.left⟩⟩
  | cons obj objs ih =>
      obtain ⟨hnot, hrest⟩ := List.nodup_cons.mp hnodup
      obtain ⟨hnamed, hout⟩ := ih hrest fun x hx => hmem x (List.mem_cons_of_mem _ hx)
      rw [List.foldr_cons]
      generalize objs.foldr (fun obj c => c.step (.release obj)) c = c' at hnamed hout ⊢
      have hin : obj ∈ c'.handedOut := (hout obj).mpr ⟨hmem obj List.mem_cons_self, hnot⟩
      have hunique : c'.handedOut.Nodup := (List.nodup_append.mp hnamed.nodup).1
      refine ⟨hnamed.release hin, fun x => ?_⟩
      rw [(release_cases hin).1, hunique.mem_erase_iff, hout, List.mem_cons, not_or]
      exact ⟨fun ⟨hne, hx, hnx⟩ => ⟨hx, hne, hnx⟩, fun ⟨hx, hne, hnx⟩ => ⟨hne, hx, hnx⟩⟩

end Calls

end PoolCallers

/-- Objects in use by several owners, each by one of them. -/
structure Parted (handedOut : List Nat) (owned : Nat → List Nat) : Prop where
  handedOut : ∀ b, ∀ obj ∈ owned b, obj ∈ handedOut
  nodup : ∀ b, (owned b).Nodup
  owner : ∀ b b' obj, obj ∈ owned b → obj ∈ owned b' → b = b'

namespace Parted

variable {out out' : List Nat} {owned : Nat → List Nat} {b obj : Nat} {objs : List Nat}

/-- One owner has one more. -/
theorem take (h : Parted out owned) (hfresh : obj ∉ out) (hperm : objs.Perm (obj :: owned b)) :
    Parted (obj :: out) (update owned b objs) := by
  -- an object of the new lists is one of the same owner's, or the new one
  have hold : ∀ b' x, x ∈ update owned b objs b' → x ∈ owned b' ∨ x = obj ∧ b' = b := by
    intro b' x hx
    by_cases hb : b' = b
    · subst hb
      rw [update_self] at hx
      rcases List.mem_cons.mp (hperm.mem_iff.mp hx) with rfl | hx
      · exact .inr ⟨rfl, rfl⟩
      · exact .inl hx
    · rw [update_of_ne hb] at hx
      exact .inl hx
  have hnot : ∀ b', obj ∉ owned b' := fun b' hmem => hfresh (h.handedOut b' obj hmem)
  refine ⟨fun b' x hx => ?_, fun b' => ?_, fun b₁ b₂ x h₁ h₂ => ?_⟩
  · rcases hold b' x hx with hx | ⟨rfl, -⟩
    · exact List.mem_cons_of_mem _ (h.handedOut b' x hx)
    · exact List.mem_cons_self
  · by_cases hb : b' = b
    · subst hb
      rw [update_self]
      exact hperm.nodup_iff.mpr (List.nodup_cons.mpr ⟨hnot b', h.nodup b'⟩)
    · rw [update_of_ne hb]
      exact h.nodup b'
  · rcases hold b₁ x h₁ with h₁ | ⟨rfl, rfl⟩
    · rcases hold b₂ x h₂ with h₂ | ⟨rfl, -⟩
      · exact h.owner b₁ b₂ x h₁ h₂
      · exact absurd h₁ (hnot b₁)
    · rcases hold b₂ x h₂ with h₂ | ⟨-, rfl⟩
      · exact absurd h₂ (hnot b₂)
      · rfl

/-- One owner has none left. -/
theorem giveBack (h : Parted out owned) (hout : ∀ x, x ∈ out' ↔ x ∈ out ∧ x ∉ owned b) :
    Parted out' (update owned b []) := by
  have hold : ∀ b' x, x ∈ update owned b [] b' → x ∈ owned b' ∧ b' ≠ b := by
    intro b' x hx
    by_cases hb : b' = b
    · rw [hb, update_self] at hx
      exact absurd hx List.not_mem_nil
    · rw [update_of_ne hb] at hx
      exact ⟨hx, hb⟩
  refine ⟨fun b' x hx => ?_, fun b' => ?_, fun b₁ b₂ x h₁ h₂ => ?_⟩
  · obtain ⟨hx, hb⟩ := hold b' x hx
    exact (hout x).mpr ⟨h.handedOut b' x hx, fun hmem => hb (h.owner b' b x hx hmem)⟩
  · by_cases hb : b' = b
    · rw [hb, update_self]
      exact List.nodup_nil
    · rw [update_of_ne hb]
      exact h.nodup b'
  · exact h.owner b₁ b₂ x (hold b₁ x h₁).1 (hold b₂ x h₂).1

end Parted

/-! ## Contexts over one pool -/

/-- The size of an undo record that fits an empty block. -/
structure RecordSize where
  val : Nat
  le : undoRecordSize ≤ val
  fits : val ≤ FixedBumpArena.allocatorBlockSize

/-- What `NewEntry` returned, with the size that was asked for. -/
structure UndoRegion where
  segment : Nat
  offset : Nat
  size : Nat

namespace UndoRegion

/-- Two regions do not overlap. -/
def Apart (r r' : UndoRegion) : Prop :=
  r.segment = r'.segment → r.offset + r.size ≤ r'.offset ∨ r'.offset + r'.size ≤ r.offset

/-- The byte at offset `o` of a segment is one of the region, as it was rounded up. -/
def Covers (r : UndoRegion) (seg o : Nat) : Prop :=
  r.segment = seg ∧ r.offset ≤ o ∧ o < r.offset + alignUp r.size 8

end UndoRegion

/-- The buffers of a live context: the segment of its redo buffer, which keeps to that one without a
log manager, and `buffers_` of its undo buffer, the last one first, with its records. -/
structure ArenaBuffer where
  redo : Nat
  segments : List Nat
  records : List UndoRegion

/-- The segments of both. The destructors give them back from the end on: the redo buffer's first,
then the undo buffer's in the order of `buffers_`. -/
def ArenaBuffer.owned (buf : ArenaBuffer) : List Nat := buf.segments ++ [buf.redo]

/-- The pool, the segments by their names, and the live contexts. -/
structure UndoArenas where
  callers : PoolCallers
  arenas : Nat → FixedBumpArena
  buffers : Nat → Option ArenaBuffer

/-- A context is created or destroyed, or `NewEntry` of its undo buffer or its redo buffer
called. -/
inductive ArenaCall
  | create (b : Nat)
  | newEntry (b : Nat) (size : RecordSize)
  | redoEntry (b : Nat) (size : Nat)
  | destroy (b : Nat)

namespace UndoArenas

/-- A segment from `pool_->Get()`: a new one is empty, one from the queue is as it was left. -/
def get (s : UndoArenas) : Except ArenaFault (UndoArenas × Nat) :=
  match s.callers.pool.get with
  | .error message => .error (.memoryException message)
  | .ok (seg, isNew, pool) =>
      .ok ({ s with
          callers := ⟨pool, seg :: s.callers.handedOut⟩
          arenas := if isNew then update s.arenas seg { s.arenas seg with size := 0 }
            else s.arenas }, seg)

/-- The constructor of `RedoBuffer` takes a segment, that of `UndoBuffer` takes none. -/
def create (s : UndoArenas) (b : Nat) : UndoArenas :=
  match s.get with
  | .error _ => s
  | .ok (s, seg) => { s with buffers := update s.buffers b (some ⟨seg, [], []⟩) }

/-- A segment behind the others of the undo buffer. -/
def takeSegment (s : UndoArenas) (buf : ArenaBuffer) :
    Except ArenaFault (UndoArenas × ArenaBuffer × Nat) :=
  match s.get with
  | .error fault => .error fault
  | .ok (s, seg) => .ok (s, { buf with segments := seg :: buf.segments }, seg)

/-- `buffers_` is not empty, and its last segment has the space. -/
def lastHasSpace (s : UndoArenas) (buf : ArenaBuffer) (size : Nat) : Bool :=
  match buf.segments with
  | [] => false
  | last :: _ => (s.arenas last).hasAvailableSpace size

/-- The segment that `NewEntry` allocates from. -/
def ensureSegment (s : UndoArenas) (buf : ArenaBuffer) (size : Nat) :
    Except ArenaFault (UndoArenas × ArenaBuffer × Nat) :=
  match buf.segments with
  | [] => s.takeSegment buf
  | last :: _ =>
      if (s.arenas last).hasAvailableSpace size then .ok (s, buf, last) else s.takeSegment buf

/-- The record is allocated in the segment. -/
def allocate (s : UndoArenas) (b : Nat) (buf : ArenaBuffer) (seg size : Nat) :
    Except ArenaFault (UndoArenas × UndoRegion) :=
  match (s.arenas seg).allocate size with
  | .error fault => .error fault
  | .ok (arena, offset) =>
      .ok ({ s with
          arenas := update s.arenas seg arena
          buffers := update s.buffers b
            (some { buf with records := ⟨seg, offset, size⟩ :: buf.records }) },
        ⟨seg, offset, size⟩)

/-- `UndoBuffer::NewEntry`. -/
def newEntry (s : UndoArenas) (b : Nat) (buf : ArenaBuffer) (size : Nat) :
    Except ArenaFault (UndoArenas × UndoRegion) :=
  match s.ensureSegment buf size with
  | .error fault => .error fault
  | .ok (s, buf, seg) => s.allocate b buf seg size

/-- `RedoBuffer::NewEntry`; a context gives its redo buffer no log manager. -/
def redoEntry (s : UndoArenas) (buf : ArenaBuffer) (size : Nat) : UndoArenas :=
  match (RedoBuffer.init s.arenas false buf.redo).newEntry size .sync with
  | .error _ => s
  | .ok (redo, _) => { s with arenas := redo.arenas }

/-- A call that ends in a fault leaves what it found. -/
def step (s : UndoArenas) : ArenaCall → UndoArenas
  | .create b => if (s.buffers b).isNone then s.create b else s
  | .newEntry b size =>
      match s.buffers b with
      | none => s
      | some buf =>
          match s.newEntry b buf size.val with
          | .ok (s', _) => s'
          | .error _ => s
  | .redoEntry b size =>
      match s.buffers b with
      | none => s
      | some buf => s.redoEntry buf size
  | .destroy b =>
      match s.buffers b with
      | none => s
      | some buf =>
          { s with
            callers := buf.owned.foldr (fun seg c => c.step (.release seg)) s.callers
            buffers := update s.buffers b none }

/-- No context, and a pool that has handed out nothing. -/
def initial (sizeLimit reuseLimit : UInt32) (arenas : Nat → FixedBumpArena) : UndoArenas :=
  ⟨.initial sizeLimit reuseLimit, arenas, fun _ => none⟩

/-- A record is returned 8-byte aligned, in its block, and apart from the redo segments and all
records of live contexts; or the pool has handed out as many segments as it may. -/
def Serves (s : UndoArenas) (b : Nat) (buf : ArenaBuffer) (size : Nat) : Prop :=
  match s.newEntry b buf size with
  | .ok (_, r) => r.offset % 8 = 0 ∧ r.offset + r.size ≤ FixedBumpArena.allocatorBlockSize ∧
      ∀ b' buf', s.buffers b' = some buf' → r.segment ≠ buf'.redo ∧ ∀ r' ∈ buf'.records, r.Apart r'
  | .error (.memoryException _) => s.callers.handedOut.length = s.callers.pool.sizeLimit.toNat
  | .error (.assertion _) => False

/-- The segments of an undo buffer contain, from offset 0 to their size, only its records. -/
def OwnRecords (s : UndoArenas) : Prop :=
  ∀ b buf, s.buffers b = some buf → ∀ seg ∈ buf.segments, ∀ o < (s.arenas seg).size,
    ∃ r ∈ buf.records, r.Covers seg o

/-- What a call is to do. -/
def Kept (s : UndoArenas) (c : ArenaCall) : Prop :=
  (∀ b size, c = .newEntry b size → ∀ buf, s.buffers b = some buf → s.Serves b buf size.val) ∧
    (s.step c).OwnRecords

/-- The next segment of the queue is empty. With an empty queue the count of the pool is below its
limit, unless as many segments are handed out. -/
def GivesEmpty (s : UndoArenas) : Prop :=
  (∀ seg ∈ s.callers.pool.queue.head?, (s.arenas seg).size = 0) ∧
    (s.callers.pool.queue = [] → s.callers.pool.currSize < s.callers.pool.sizeLimit ∨
      s.callers.handedOut.length = s.callers.pool.sizeLimit.toNat)

/-- A record that needs a segment meets a pool that gives an empty one. -/
def TakesEmpty (s : UndoArenas) (c : ArenaCall) : Prop :=
  ∀ b size, c = .newEntry b size → ∀ buf, s.buffers b = some buf →
    s.lastHasSpace buf size.val = false → s.GivesEmpty

end UndoArenas

/-! ## The layout of the segments -/

/-- The records of an undo buffer fill its segments from offset 0 to their size. -/
structure ArenaBuffer.Filled (buf : ArenaBuffer) (arenas : Nat → FixedBumpArena) : Prop where
  aligned : ∀ seg ∈ buf.segments, (arenas seg).size % 8 = 0
  covered : ∀ seg ∈ buf.segments, ∀ o < (arenas seg).size, ∃ r ∈ buf.records, r.Covers seg o
  records : ∀ r ∈ buf.records,
    r.segment ∈ buf.segments ∧ r.offset + alignUp r.size 8 ≤ (arenas r.segment).size

theorem le_alignUp8 (n : Nat) : n ≤ alignUp n 8 := DataChunkLayout.le_alignUp (by omega)

theorem alignUp8_mod (n : Nat) : alignUp n 8 % 8 = 0 := Nat.mul_mod_left _ _

/-- The block size is a multiple of 8. -/
theorem alignUp8_le_block {n : Nat} (h : n ≤ FixedBumpArena.allocatorBlockSize) :
    alignUp n 8 ≤ FixedBumpArena.allocatorBlockSize := by
  unfold FixedBumpArena.allocatorBlockSize alignUp at *
  omega

namespace ArenaBuffer

variable {buf : ArenaBuffer} {arenas arenas' : Nat → FixedBumpArena} {seg size : Nat}

theorem mem_owned (h : seg ∈ buf.segments) : seg ∈ buf.owned := List.mem_append_left _ h

theorem redo_mem_owned (buf : ArenaBuffer) : buf.redo ∈ buf.owned :=
  List.mem_append_right _ List.mem_cons_self

/-- No segment of the undo buffer is the redo buffer's. -/
theorem ne_redo (hnodup : buf.owned.Nodup) (h : seg ∈ buf.segments) : seg ≠ buf.redo :=
  (List.nodup_append.mp hnodup).2.2 seg h buf.redo List.mem_cons_self

/-- It depends on the segments of the buffer alone. -/
theorem Filled.congr (h : buf.Filled arenas)
    (heq : ∀ seg ∈ buf.segments, arenas' seg = arenas seg) :
    buf.Filled arenas' where
  aligned seg hseg := by
    rw [heq seg hseg]
    exact h.aligned seg hseg
  covered seg hseg := by
    rw [heq seg hseg]
    exact h.covered seg hseg
  records r hr := by
    obtain ⟨hmem, hle⟩ := h.records r hr
    rw [heq r.segment hmem]
    exact ⟨hmem, hle⟩

theorem filled_nil (redo : Nat) (arenas : Nat → FixedBumpArena) : Filled ⟨redo, [], []⟩ arenas where
  aligned _ h := absurd h List.not_mem_nil
  covered _ h := absurd h List.not_mem_nil
  records _ h := absurd h List.not_mem_nil

/-- An empty segment is behind the others. -/
theorem Filled.take (h : buf.Filled arenas) (hempty : (arenas seg).size = 0) :
    Filled { buf with segments := seg :: buf.segments } arenas where
  aligned x hx := by
    rcases List.mem_cons.mp hx with rfl | hx
    · rw [hempty]
    · exact h.aligned x hx
  covered x hx o ho := by
    rcases List.mem_cons.mp hx with rfl | hx
    · rw [hempty] at ho
      exact absurd ho (Nat.not_lt_zero o)
    · exact h.covered x hx o ho
  records r hr := by
    obtain ⟨hmem, hle⟩ := h.records r hr
    exact ⟨List.mem_cons_of_mem _ hmem, hle⟩

/-- A record is behind the others of a segment. -/
theorem Filled.allocate (h : buf.Filled arenas) (hseg : seg ∈ buf.segments) :
    Filled { buf with records := ⟨seg, (arenas seg).size, size⟩ :: buf.records }
      (update arenas seg { arenas seg with size := (arenas seg).size + alignUp size 8 }) where
  aligned x hx := by
    have hold := h.aligned x hx
    by_cases hxs : x = seg
    · subst hxs
      have hmod := alignUp8_mod size
      rw [update_self]
      show ((arenas x).size + alignUp size 8) % 8 = 0
      omega
    · rw [update_of_ne hxs]
      exact hold
  covered x hx o ho := by
    have hcovered : o < (arenas x).size →
        ∃ r ∈ (⟨seg, (arenas seg).size, size⟩ :: buf.records : List UndoRegion), r.Covers x o := by
      intro ho
      obtain ⟨r, hr, hcovers⟩ := h.covered x hx o ho
      exact ⟨r, List.mem_cons_of_mem _ hr, hcovers⟩
    by_cases hxs : x = seg
    · subst hxs
      rw [update_self] at ho
      by_cases hlt : o < (arenas x).size
      · exact hcovered hlt
      · exact ⟨_, List.mem_cons_self, rfl, not_lt.mp hlt, ho⟩
    · rw [update_of_ne hxs] at ho
      exact hcovered ho
  records r hr := by
    rcases List.mem_cons.mp hr with rfl | hr
    · refine ⟨hseg, ?_⟩
      rw [update_self]
    · obtain ⟨hmem, hle⟩ := h.records r hr
      refine ⟨hmem, ?_⟩
      by_cases hrs : r.segment = seg
      · rw [hrs] at hle
        rw [hrs, update_self]
        exact Nat.le_trans hle (Nat.le_add_right _ _)
      · rw [update_of_ne hrs]
        exact hle

/-- The place behind the others is apart from them. -/
theorem Filled.apart (h : buf.Filled arenas) {r : UndoRegion} (hr : r ∈ buf.records) :
    UndoRegion.Apart ⟨seg, (arenas seg).size, size⟩ r := by
  intro heq
  change seg = r.segment at heq
  have hend := (h.records r hr).2
  have hle := le_alignUp8 r.size
  right
  show r.offset + r.size ≤ (arenas seg).size
  rw [heq]
  omega

end ArenaBuffer

namespace RedoBuffer

/-- An entry is in the segment of the buffer, if there was no other. -/
theorem newEntry_arenas {b b' : RedoBuffer} {size : Nat} {policy : DurabilityPolicy}
    {p : SegmentPtr} (h : b.newEntry size policy = .ok (b', p)) (hold : b.segmentOld = b.segment)
    (x : Nat) (hx : x ≠ b.segment) : b'.arenas x = b.arenas x := by
  have hensure : (b.ensureSegment size policy).segment = b.segment ∧
      (b.ensureSegment size policy).arenas = b.arenas := by
    unfold ensureSegment
    split_ifs
    · exact ⟨rfl, rfl⟩
    · exact ⟨rfl, rfl⟩
    · exact ⟨hold, rfl⟩
  unfold newEntry at h
  generalize b.ensureSegment size policy = b₁ at h hensure
  obtain ⟨hsegment, harenas⟩ := hensure
  dsimp only at h
  split at h
  · rename_i hspace
    unfold FixedBumpArena.allocate at h
    rw [if_pos hspace] at h
    cases h
    show update b₁.arenas b₁.segment _ x = b.arenas x
    rw [hsegment, update_of_ne hx, harenas]
  · cases h

end RedoBuffer

namespace UndoArenas

/-- The segments that a context has to give back. -/
def owned (s : UndoArenas) (b : Nat) : List Nat := (s.buffers b).elim [] ArenaBuffer.owned

/-- A segment has one name and one owner, and the records of the undo buffers fill theirs. -/
structure Laid (s : UndoArenas) : Prop where
  named : s.callers.Named
  parted : Parted s.callers.handedOut s.owned
  filled : ∀ b buf, s.buffers b = some buf → buf.Filled s.arenas

section Steps

variable {s s' : UndoArenas} {b : Nat} {buf : ArenaBuffer} {seg size : Nat}

theorem owned_of_some (hb : s.buffers b = some buf) : s.owned b = buf.owned := by
  unfold owned
  rw [hb]
  rfl

theorem owned_update (s : UndoArenas) (callers : PoolCallers) (arenas : Nat → FixedBumpArena)
    (b : Nat) (x : Option ArenaBuffer) :
    owned ⟨callers, arenas, update s.buffers b x⟩ =
      update s.owned b (x.elim [] ArenaBuffer.owned) := by
  funext b'
  show (update s.buffers b x b').elim [] ArenaBuffer.owned = _
  by_cases hb : b' = b
  · subst hb
    rw [update_self, update_self]
  · rw [update_of_ne hb, update_of_ne hb]
    rfl

/-- A segment in the queue is nobody's. -/
theorem Laid.not_queued (h : s.Laid) (hb : s.buffers b = some buf) (hseg : seg ∈ buf.owned) :
    seg ∉ s.callers.pool.queue := by
  intro hqueue
  have hout := h.parted.handedOut b seg (owned_of_some hb ▸ hseg)
  exact (List.nodup_append.mp h.named.nodup).2.2 seg hout seg hqueue rfl

theorem Laid.nodup (h : s.Laid) (hb : s.buffers b = some buf) : buf.owned.Nodup :=
  owned_of_some hb ▸ h.parted.nodup b

theorem Laid.owner (h : s.Laid) {b' : Nat} {buf' : ArenaBuffer} (hb : s.buffers b = some buf)
    (hb' : s.buffers b' = some buf') (hseg : seg ∈ buf.owned) (hseg' : seg ∈ buf'.owned) : b = b' :=
  h.parted.owner b b' seg (owned_of_some hb ▸ hseg) (owned_of_some hb' ▸ hseg')

/-- One context changes or is gone. The segments of the others are as they were. -/
theorem Laid.set (h : s.Laid) {callers : PoolCallers} {arenas : Nat → FixedBumpArena}
    {x : Option ArenaBuffer} (hnamed : callers.Named)
    (hparted : Parted callers.handedOut (update s.owned b (x.elim [] ArenaBuffer.owned)))
    (hfilled : ∀ buf, x = some buf → buf.Filled arenas)
    (hothers : ∀ b' buf', b' ≠ b → s.buffers b' = some buf' →
      ∀ seg ∈ buf'.segments, arenas seg = s.arenas seg) :
    Laid ⟨callers, arenas, update s.buffers b x⟩ where
  named := hnamed
  parted := by
    rw [owned_update]
    exact hparted
  filled b' buf' hb' := by
    by_cases hb : b' = b
    · subst hb
      change update s.buffers b' x b' = some buf' at hb'
      rw [update_self] at hb'
      exact hfilled buf' hb'
    · change update s.buffers b x b' = some buf' at hb'
      rw [update_of_ne hb] at hb'
      exact (h.filled b' buf' hb').congr (hothers b' buf' hb hb')

/-- What `Get` leaves: one segment more is handed out, that was nobody's. -/
structure Taken (s s' : UndoArenas) (seg : Nat) : Prop where
  named : s'.callers.Named
  handedOut : s'.callers.handedOut = seg :: s.callers.handedOut
  fresh : seg ∉ s.callers.handedOut
  arenas : ∀ x, x ≠ seg → s'.arenas x = s.arenas x
  buffers : s'.buffers = s.buffers

theorem get_taken (h : s.callers.Named) (hget : s.get = .ok (s', seg)) : Taken s s' seg := by
  unfold get at hget
  cases hpool : s.callers.pool.get with
  | error message =>
      rw [hpool] at hget
      cases hget
  | ok result =>
      obtain ⟨obj, isNew, pool⟩ := result
      rw [hpool] at hget
      cases hget
      obtain ⟨hnamed, hfresh⟩ := h.get hpool
      refine ⟨hnamed, rfl, hfresh, fun x hx => ?_, rfl⟩
      show (if isNew = true then update s.arenas seg { s.arenas seg with size := 0 }
        else s.arenas) x = s.arenas x
      split
      · exact update_of_ne hx _ _
      · rfl

/-- A pool that gives an empty segment throws only when all are handed out. -/
theorem GivesEmpty.get (h : s.GivesEmpty) :
    (∃ message, s.get = .error (.memoryException message) ∧
        s.callers.handedOut.length = s.callers.pool.sizeLimit.toNat) ∨
      ∃ s' seg, s.get = .ok (s', seg) ∧ (s'.arenas seg).size = 0 := by
  unfold UndoArenas.get
  cases hpool : s.callers.pool.get with
  | error message =>
      obtain ⟨hnil, hle⟩ := ObjectPool.get_error hpool
      refine .inl ⟨message, rfl, (h.2 hnil).resolve_left fun hlt => ?_⟩
      exact absurd hlt (UInt32.not_lt.mpr hle)
  | ok result =>
      obtain ⟨seg, isNew, pool⟩ := result
      refine .inr ⟨_, _, rfl, ?_⟩
      rcases ObjectPool.get_cases hpool with ⟨queue, hqueue, rfl, -⟩ | ⟨-, -, -, rfl, -⟩
      · exact h.1 seg (by rw [hqueue]; rfl)
      · show (update s.arenas seg { s.arenas seg with size := 0 } seg).size = 0
        rw [update_self]

/-- The segment that is taken is not one of the live contexts. -/
theorem Taken.ne (ht : Taken s s' seg) (h : s.Laid) {b' x : Nat} {buf' : ArenaBuffer}
    (hb' : s.buffers b' = some buf') (hx : x ∈ buf'.owned) : x ≠ seg := by
  rintro rfl
  exact ht.fresh (h.parted.handedOut b' x (owned_of_some hb' ▸ hx))

/-- The segment goes to a context that has the others of before. -/
theorem Laid.give (h : s.Laid) (ht : Taken s s' seg) {buf₁ : ArenaBuffer}
    (hperm : buf₁.owned.Perm (seg :: s.owned b)) (hfilled : buf₁.Filled s'.arenas) :
    Laid { s' with buffers := update s'.buffers b (some buf₁) } := by
  have hparted : Parted s'.callers.handedOut (update s.owned b buf₁.owned) := by
    rw [ht.handedOut]
    exact h.parted.take ht.fresh hperm
  rw [ht.buffers]
  refine h.set ht.named hparted (fun buf heq => ?_) fun b' buf' _ hb' x hx => ?_
  · cases heq
    exact hfilled
  · exact ht.arenas x (ht.ne h hb' (ArenaBuffer.mem_owned hx))

theorem Laid.create (h : s.Laid) (hb : s.buffers b = none) : (s.create b).Laid := by
  unfold UndoArenas.create
  cases hget : s.get with
  | error fault => exact h
  | ok result =>
      obtain ⟨s', seg⟩ := result
      have hnone : s.owned b = [] := by
        unfold owned
        rw [hb]
        rfl
      refine h.give (get_taken h.named hget) ?_ (ArenaBuffer.filled_nil seg s'.arenas)
      rw [hnone]
      exact List.Perm.refl _

/-- An empty segment goes to the undo buffer. -/
theorem Laid.take (h : s.Laid) (hb : s.buffers b = some buf) (ht : Taken s s' seg)
    (hempty : (s'.arenas seg).size = 0) :
    Laid { s' with
      buffers := update s'.buffers b (some { buf with segments := seg :: buf.segments }) } := by
  have hfilled : buf.Filled s'.arenas := (h.filled b buf hb).congr fun x hx =>
    ht.arenas x (ht.ne h hb (ArenaBuffer.mem_owned hx))
  refine h.give ht ?_ (hfilled.take hempty)
  rw [owned_of_some hb]
  exact List.Perm.refl _

/-- The segments of the redo buffers are apart from those of the undo buffers. -/
theorem Laid.redo_ne (h : s.Laid) {b' : Nat} {buf' : ArenaBuffer} (hb : s.buffers b = some buf)
    (hb' : s.buffers b' = some buf') (hseg : seg ∈ buf.segments) : seg ≠ buf'.redo := by
  rintro rfl
  have heq := h.owner hb hb' (ArenaBuffer.mem_owned hseg) buf'.redo_mem_owned
  subst heq
  cases hb.symm.trans hb'
  exact ArenaBuffer.ne_redo (h.nodup hb) hseg rfl

theorem fits_of_space {a : FixedBumpArena} (hspace : a.hasAvailableSpace size = true) :
    a.size + size ≤ FixedBumpArena.allocatorBlockSize := by
  have hle : a.size + alignUp size 8 ≤ FixedBumpArena.allocatorBlockSize := of_decide_eq_true hspace
  have hsize := le_alignUp8 size
  omega

/-- A record in a segment of the undo buffer that has the space: it is behind all others there. -/
theorem Laid.serve (h : s.Laid) (hb : s.buffers b = some buf) (hseg : seg ∈ buf.segments)
    (hspace : (s.arenas seg).hasAvailableSpace size = true) :
    ∃ s' r, s.allocate b buf seg size = .ok (s', r) ∧ s'.Laid ∧ r.offset % 8 = 0 ∧
      r.offset + r.size ≤ FixedBumpArena.allocatorBlockSize ∧
      ∀ b' buf', s.buffers b' = some buf' →
        r.segment ≠ buf'.redo ∧ ∀ r' ∈ buf'.records, r.Apart r' := by
  have hallocate : (s.arenas seg).allocate size =
      .ok ({ s.arenas seg with size := (s.arenas seg).size + alignUp size 8 },
        (s.arenas seg).size) := if_pos hspace
  unfold UndoArenas.allocate
  rw [hallocate]
  refine ⟨_, _, rfl, ?_, (h.filled b buf hb).aligned seg hseg, fits_of_space hspace,
    fun b' buf' hb' => ⟨h.redo_ne hb hb' hseg, fun r' hr' => (h.filled b' buf' hb').apart hr'⟩⟩
  refine h.set h.named ?_ (fun buf' heq => ?_) fun b' buf' hne hb' x hx => ?_
  · show Parted s.callers.handedOut (update s.owned b buf.owned)
    rw [← owned_of_some hb, update_eq_self]
    exact h.parted
  · cases heq
    exact (h.filled b buf hb).allocate hseg
  · refine update_of_ne (fun heq => hne ?_) _ _
    subst heq
    exact h.owner hb' hb (ArenaBuffer.mem_owned hx) (ArenaBuffer.mem_owned hseg)

/-- `NewEntry` allocates from the last segment if that has the space. -/
theorem ensureSegment_last (s : UndoArenas) (buf : ArenaBuffer) (size : Nat)
    (h : s.lastHasSpace buf size = true) :
    ∃ last ∈ buf.segments, (s.arenas last).hasAvailableSpace size = true ∧
      s.ensureSegment buf size = .ok (s, buf, last) := by
  unfold lastHasSpace at h
  unfold ensureSegment
  cases hsegs : buf.segments with
  | nil =>
      rw [hsegs] at h
      cases h
  | cons last segs =>
      rw [hsegs] at h
      exact ⟨last, List.mem_cons_self, h, if_pos h⟩

/-- Otherwise it takes one. -/
theorem ensureSegment_take (s : UndoArenas) (buf : ArenaBuffer) (size : Nat)
    (h : s.lastHasSpace buf size = false) : s.ensureSegment buf size = s.takeSegment buf := by
  unfold lastHasSpace at h
  unfold ensureSegment
  cases hsegs : buf.segments with
  | nil => rfl
  | cons last segs =>
      rw [hsegs] at h
      exact if_neg (Bool.not_eq_true _ ▸ h)

/-- The record that is allocated replaces the buffer, whatever stood there. -/
theorem allocate_update (s : UndoArenas) (b : Nat) (buf : ArenaBuffer) (x : Option ArenaBuffer)
    (seg size : Nat) :
    UndoArenas.allocate { s with buffers := update s.buffers b x } b buf seg size =
      s.allocate b buf seg size := by
  unfold UndoArenas.allocate
  cases (s.arenas seg).allocate size with
  | error fault => rfl
  | ok result =>
      dsimp only
      rw [update_idem]

/-- A record that fits an empty block is found a place where the pool gives empty segments. -/
theorem Laid.newEntry (h : s.Laid) (hb : s.buffers b = some buf) (z : RecordSize)
    (hgives : s.lastHasSpace buf z.val = false → s.GivesEmpty) :
    s.Serves b buf z.val ∧ ∀ s' r, s.newEntry b buf z.val = .ok (s', r) → s'.Laid := by
  unfold Serves UndoArenas.newEntry
  cases hspace : s.lastHasSpace buf z.val with
  | true =>
      obtain ⟨last, hlast, hspace, hensure⟩ := s.ensureSegment_last buf z.val hspace
      obtain ⟨s', r, hallocate, hlaid, hserved⟩ := h.serve hb hlast hspace
      rw [hensure]
      dsimp only
      rw [hallocate]
      refine ⟨hserved, fun _ _ heq => ?_⟩
      cases heq
      exact hlaid
  | false =>
      rw [s.ensureSegment_take buf z.val hspace]
      unfold takeSegment
      rcases (hgives hspace).get with ⟨message, hget, hfull⟩ | ⟨s₁, seg, hget, hempty⟩
      · rw [hget]
        refine ⟨hfull, fun _ _ heq => ?_⟩
        cases heq
      · have ht := get_taken h.named hget
        have hlaid := h.take hb ht hempty
        have hfits : (s₁.arenas seg).hasAvailableSpace z.val = true := by
          refine decide_eq_true ?_
          rw [hempty, Nat.zero_add]
          exact alignUp8_le_block z.fits
        obtain ⟨s₂, r, hallocate, hlaid₂, haligned, hblock, hapart⟩ :=
          hlaid.serve (update_self ..) List.mem_cons_self hfits
        rw [allocate_update] at hallocate
        rw [hget]
        dsimp only
        rw [hallocate]
        refine ⟨⟨haligned, hblock, fun b' buf' hb' => ?_⟩, fun _ _ heq => ?_⟩
        · by_cases hne : b' = b
          · -- the records and the redo segment of this context are as they were
            subst hne
            cases hb.symm.trans hb'
            exact hapart b' { buf with segments := seg :: buf.segments } (update_self ..)
          · refine hapart b' buf' ?_
            show update s₁.buffers b _ b' = some buf'
            rw [update_of_ne hne, ht.buffers]
            exact hb'
        · cases heq
          exact hlaid₂

/-- An entry of the redo buffer is in a segment of no undo buffer. -/
theorem Laid.redoEntry (h : s.Laid) (hb : s.buffers b = some buf) (size : Nat) :
    (s.redoEntry buf size).Laid := by
  unfold UndoArenas.redoEntry
  cases hentry : (RedoBuffer.init s.arenas false buf.redo).newEntry size .sync with
  | error fault => exact h
  | ok result =>
      obtain ⟨redo, ptr⟩ := result
      refine ⟨h.named, h.parted, fun b' buf' hb' => (h.filled b' buf' hb').congr fun x hx => ?_⟩
      exact RedoBuffer.newEntry_arenas hentry rfl x (h.redo_ne hb' hb hx)

theorem Laid.destroy (h : s.Laid) (hb : s.buffers b = some buf) :
    Laid { s with
      callers := buf.owned.foldr (fun seg c => c.step (.release seg)) s.callers
      buffers := update s.buffers b none } := by
  have howned := owned_of_some hb
  obtain ⟨hnamed, hout⟩ := h.named.releases (h.nodup hb) fun seg hseg =>
    h.parted.handedOut b seg (howned ▸ hseg)
  refine h.set hnamed (h.parted.giveBack ?_) (fun buf heq => ?_) fun _ _ _ _ _ _ => rfl
  · rw [howned]
    exact hout
  · cases heq

theorem step_newEntry (hb : s.buffers b = some buf) (z : RecordSize) :
    s.step (.newEntry b z) = match s.newEntry b buf z.val with
      | .ok (s', _) => s'
      | .error _ => s := by
  unfold step
  dsimp only
  rw [hb]

/-- A full pool with an empty queue throws. -/
theorem get_full (hnil : s.callers.pool.queue = [])
    (hfull : s.callers.pool.sizeLimit ≤ s.callers.pool.currSize) :
    s.get = .error (.memoryException "No more objects in the pool") := by
  unfold UndoArenas.get ObjectPool.get
  rw [hnil]
  dsimp only
  rw [if_pos hfull]

/-- The next segment of the queue is handed out with what is in it. -/
theorem get_queued {queue : List Nat} (hqueue : s.callers.pool.queue = seg :: queue) :
    s.get = .ok ({ s with
      callers := ⟨{ s.callers.pool with queue := queue }, seg :: s.callers.handedOut⟩ }, seg) := by
  unfold UndoArenas.get ObjectPool.get
  rw [hqueue]
  rfl

/-- A record behind what another buffer has left in a segment: the bytes at its start are not of
this buffer's records, and where there is no space the assertion fails. -/
theorem Laid.reused_empty (h : s.Laid) (hb : s.buffers b = some buf) (z : RecordSize)
    {queue : List Nat} (hqueue : s.callers.pool.queue = seg :: queue)
    (hspace : s.lastHasSpace buf z.val = false) (hserves : s.Serves b buf z.val)
    (hown : (s.step (.newEntry b z)).OwnRecords) : (s.arenas seg).size = 0 := by
  by_contra hfull
  rw [step_newEntry hb] at hown
  unfold Serves at hserves
  unfold UndoArenas.newEntry at hserves hown
  rw [s.ensureSegment_take buf z.val hspace] at hserves hown
  unfold takeSegment at hserves hown
  rw [get_queued hqueue] at hserves hown
  dsimp only at hserves hown
  unfold UndoArenas.allocate FixedBumpArena.allocate at hserves hown
  dsimp only at hserves hown
  by_cases hfits : (s.arenas seg).hasAvailableSpace z.val = true
  · rw [if_pos hfits] at hown
    have hmem : seg ∈ s.callers.pool.queue := by
      rw [hqueue]
      exact List.mem_cons_self
    have hsize : 0 < (update s.arenas seg
        { s.arenas seg with size := (s.arenas seg).size + alignUp z.val 8 } seg).size := by
      rw [update_self]
      exact Nat.add_pos_left (Nat.pos_of_ne_zero hfull) _
    obtain ⟨r, hr, hsegment, hle, -⟩ := hown b _ (update_self ..) seg List.mem_cons_self 0 hsize
    rcases List.mem_cons.mp hr with rfl | hr
    · change (s.arenas seg).size ≤ 0 at hle
      omega
    · -- an old record of the buffer is in a segment that it had
      have hmine := ((h.filled b buf hb).records r hr).1
      rw [hsegment] at hmine
      exact h.not_queued hb (ArenaBuffer.mem_owned hmine) hmem
  · rw [if_neg hfits] at hserves
    exact hserves

/-- The pool gives an empty segment where a record that needs one is served. -/
theorem Laid.givesEmpty (h : s.Laid) (hb : s.buffers b = some buf) (z : RecordSize)
    (hspace : s.lastHasSpace buf z.val = false) (hserves : s.Serves b buf z.val)
    (hown : (s.step (.newEntry b z)).OwnRecords) : s.GivesEmpty := by
  constructor
  · intro seg hseg
    obtain ⟨queue, hqueue⟩ := List.head?_eq_some_iff.mp hseg
    exact h.reused_empty hb z hqueue hspace hserves hown
  · intro hnil
    rw [or_iff_not_imp_left]
    intro hfull
    unfold Serves UndoArenas.newEntry at hserves
    rw [s.ensureSegment_take buf z.val hspace] at hserves
    unfold takeSegment at hserves
    rw [get_full hnil (UInt32.not_lt.mp hfull)] at hserves
    exact hserves

end Steps

theorem laid_initial (sizeLimit reuseLimit : UInt32) (arenas : Nat → FixedBumpArena) :
    (initial sizeLimit reuseLimit arenas).Laid where
  named := PoolCallers.named_initial sizeLimit reuseLimit
  parted :=
    { handedOut := fun _ _ h => absurd h List.not_mem_nil
      nodup := fun _ => List.nodup_nil
      owner := fun _ _ _ h => absurd h List.not_mem_nil }
  filled _ _ hb := nomatch hb

theorem Laid.step {s : UndoArenas} {c : ArenaCall} (h : s.Laid) (hc : s.TakesEmpty c) :
    s.Kept c ∧ (s.step c).Laid := by
  have hserves : ∀ b size, c = .newEntry b size → ∀ buf, s.buffers b = some buf →
      s.Serves b buf size.val := by
    rintro b size rfl buf hb
    exact (h.newEntry hb size (hc b size rfl buf hb)).1
  have hlaid : (s.step c).Laid := by
    cases c with
    | create b =>
        unfold UndoArenas.step
        dsimp only
        split
        · exact h.create (Option.isNone_iff_eq_none.mp ‹_›)
        · exact h
    | newEntry b size =>
        cases hb : s.buffers b with
        | none =>
            unfold UndoArenas.step
            dsimp only
            rw [hb]
            exact h
        | some buf =>
            rw [step_newEntry hb]
            cases hentry : s.newEntry b buf size.val with
            | error fault => exact h
            | ok result =>
                exact (h.newEntry hb size (hc b size rfl buf hb)).2 result.1 result.2 hentry
    | redoEntry b size =>
        unfold UndoArenas.step
        dsimp only
        cases hb : s.buffers b with
        | none => exact h
        | some buf => exact h.redoEntry hb size
    | destroy b =>
        unfold UndoArenas.step
        dsimp only
        cases hb : s.buffers b with
        | none => exact h
        | some buf => exact h.destroy hb
  exact ⟨⟨hserves, fun b buf hb => (hlaid.filled b buf hb).covered⟩, hlaid⟩

/-- **In every run records are found a place of their own, and segments contain the records of their
undo buffer alone, exactly when every record that needs a segment meets a pool that gives an empty
one.** -/
theorem entries_served_iff (sizeLimit reuseLimit : UInt32) (arenas : Nat → FixedBumpArena)
    (calls : List ArenaCall) :
    (∀ x ∈ runSteps step (initial sizeLimit reuseLimit arenas) calls, x.1.Kept x.2) ↔
      ∀ x ∈ runSteps step (initial sizeLimit reuseLimit arenas) calls, x.1.TakesEmpty x.2 :=
  forall_runSteps_iff (fun _ _ h hc => h.step hc)
    (fun s c h hkept => by
      rintro b size rfl buf hb hspace
      exact h.givesEmpty hb size hspace (hkept.1 b size rfl buf hb) hkept.2)
    (laid_initial sizeLimit reuseLimit arenas) calls

/-- A record as large as a block. -/
def wholeBlock : RecordSize := ⟨4096, by decide, le_rfl⟩

/-- A block is filled and its context destroyed. The redo buffer of the next context takes the one
of the first, and its undo buffer the block, which has no space for any record. -/
def reuseCalls : List ArenaCall :=
  [.create 0, .newEntry 0 wholeBlock, .destroy 0, .create 1,
    .newEntry 1 ⟨40, by decide, by decide⟩]

theorem segment_reused : ¬∀ (sizeLimit reuseLimit : UInt32) (arenas : Nat → FixedBumpArena)
    (calls : List ArenaCall),
    ∀ x ∈ runSteps step (initial sizeLimit reuseLimit arenas) calls, x.1.Kept x.2 := by
  intro hall
  have hlast := (hall 4 4 (fun _ => ⟨fun _ => byte 0, 0⟩) reuseCalls
    (reuseCalls.dropLast.foldl step (initial 4 4 fun _ => ⟨fun _ => byte 0, 0⟩),
      .newEntry 1 ⟨40, by decide, by decide⟩)
    (by iterate 4 apply List.mem_cons_of_mem
        exact List.mem_cons_self)).1
  exact hlast 1 _ rfl ⟨0, [], []⟩ rfl

end UndoArenas

end Db7
