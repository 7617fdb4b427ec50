import Db7.Lib.Fallible
import Db7.Storage.UndoSegments

/-!
# Iterating over the undo buffer

The iterator reads the size of a delta behind the header of every record, but
only an update has one. Behind an insert or a delete it reads four bytes that no
call writes: padding of the next record, or memory that is not in use.

* **paths** (`visits_iff`): a loop visits a list exactly when each record leads
  to the next one;
* **steps** (`call_ok`, `Extends`): where a call puts its record, and what later
  calls leave as it is;
* **undo_iteration**: the iterator visits what was created if and only if the
  pool's segments were empty and those bytes were zero.
-/

namespace Db7

open Lib Function

namespace RawRecord

/-! ## Records in memory -/

variable {data : Mem} {head a time : Nat} {type : DeltaRecordType} {slot : Slot}

/-- The header is written but for the padding after `type_`. -/
theorem initHeader_outside (h : a < head ∨ head < a ∧ a < head + 8 ∨ head + undoRecordSize ≤ a) :
    initHeader data head type time slot a = data a := by
  unfold undoRecordSize at h
  unfold initHeader
  rw [Mem.write_outside, Mem.write_outside, Mem.write_outside, Mem.write_outside, Mem.write_outside,
    Mem.write_outside] <;> simp only [length_toLE, List.length_singleton] <;> omega

theorem deltaSize_congr {data' : Mem} {head' : Nat}
    (h : ∀ i, i < 4 → data (head + undoRecordSize + 4 + i) =
      data' (head' + undoRecordSize + 4 + i)) :
    deltaSize data head = deltaSize data' head' := by
  have hread :
      data.read (head + undoRecordSize + 4) 4 = data'.read (head' + undoRecordSize + 4) 4 :=
    List.map_congr_left fun i hi => h i (List.mem_range.mp hi)
  unfold deltaSize
  rw [hread]

theorem deltaSize_lt : deltaSize data head < 2 ^ 32 := by
  have := ofLE_lt (data.read (head + undoRecordSize + 4) 4)
  simpa [deltaSize] using this

theorem getTimestamp_setTimestamp :
    getTimestamp (setTimestamp data head time) head = time % 2 ^ 64 := by
  have := @Mem.read_write data (head + 16) (toLE 8 time)
  rw [length_toLE] at this
  unfold getTimestamp setTimestamp
  rw [this, ofLE_toLE]
  rfl

theorem setTimestamp_outside (h : a < head + 16 ∨ head + 24 ≤ a) :
    setTimestamp data head time a = data a :=
  Mem.write_outside (by rw [length_toLE]; omega)

end RawRecord

namespace UndoCall

variable {data : Mem} {head finish a : Nat}

theorem size_ge (c : UndoCall) : undoRecordSize ≤ c.size := by
  cases c <;> simp [size]

theorem size_le (c : UndoCall) : c.size ≤ FixedBumpArena.allocatorBlockSize := by
  cases c with
  | insert slot | delete slot =>
      show undoRecordSize ≤ _
      decide
  | update slot chunk => exact chunk.fits

theorem alignUp_size (c : UndoCall) : alignUp c.size 8 = c.size := by
  refine DataChunkLayout.alignUp_of_dvd (by decide) ?_
  cases c with
  | insert | delete => exact ⟨5, rfl⟩
  | update slot chunk => exact Nat.dvd_add ⟨5, rfl⟩ chunk.aligned

theorem size_of_not_update {c : UndoCall} (h : c.isUpdate = false) : c.size = undoRecordSize := by
  cases c with
  | insert | delete => rfl
  | update => simp [isUpdate] at h

theorem size_cases (c : UndoCall) : c.size = undoRecordSize ∨ undoRecordSize + 8 ≤ c.size := by
  cases c with
  | insert | delete => exact .inl rfl
  | update slot chunk =>
      have := chunk.header_le
      simp only [size]
      omega

/-- A call writes to its record only, and not to the padding after `type_`. -/
theorem write_outside (c : UndoCall) (h : a < head ∨ head < a ∧ a < head + 8 ∨ head + c.size ≤ a) :
    c.write data head finish a = data a := by
  have hsize := c.size_ge
  cases c with
  | insert | delete => exact RawRecord.initHeader_outside (by omega)
  | update slot chunk =>
      have hlen : chunk.header.length = 8 + chunk.rest.length := by
        simp only [ChunkImage.header, List.length_append, length_toLE]
        omega
      have := chunk.header_le
      have h40 : undoRecordSize = 40 := rfl
      simp only [size] at h
      show RawRecord.initializeUpdate data head finish slot chunk.header a = data a
      unfold RawRecord.initializeUpdate
      rw [Mem.write_outside (by omega), RawRecord.initHeader_outside (by omega)]

/-- Behind the header of an update the iterator reads the chunk's size. -/
theorem deltaSize_update (slot : Slot) (chunk : ChunkImage) :
    RawRecord.deltaSize ((update slot chunk).write data head finish) head = chunk.totalSize := by
  have hread : ((update slot chunk).write data head finish).read (head + undoRecordSize + 4) 4 =
      toLE 4 chunk.totalSize := by
    have := @Mem.read_write_middle (RawRecord.initHeader data head .update finish slot)
      (head + undoRecordSize) (toLE 4 chunk.totalSize) (toLE 4 chunk.columnCount) chunk.rest
    rwa [length_toLE, length_toLE] at this
  have hfits := chunk.fits
  unfold RawRecord.deltaSize
  rw [hread, ofLE_toLE, Nat.mod_eq_of_lt]
  simp only [FixedBumpArena.allocatorBlockSize] at hfits
  omega

/-- Behind the header of the others it reads what was there before. -/
theorem deltaSize_of_not_update {c : UndoCall} (h : c.isUpdate = false) :
    RawRecord.deltaSize (c.write data head finish) head = RawRecord.deltaSize data head := by
  refine RawRecord.deltaSize_congr fun i _ => write_outside c (.inr (.inr ?_))
  rw [size_of_not_update h]
  omega

end UndoCall

namespace UndoSegments

/-! ## Where a call puts its record -/

section Calls

variable {b b₁ b' : UndoSegments} {c : UndoCall} {cs : List UndoCall} {p q it : UndoIterator}
  {ps : List UndoIterator} {finish : Nat}

/-- A call puts its record behind the last one, or at the `size_` of the next
segment. -/
structure Called (finish : Nat) (b : UndoSegments) (c : UndoCall) (b' : UndoSegments)
    (p : UndoIterator) :
    Prop where
  segment : p.currSegment + 1 = b.count ∨ p.currSegment = b.count
  count : b'.count = p.currSegment + 1
  offset : p.segmentOffset = (b.segments p.currSegment).size
  fits : p.segmentOffset + c.size ≤ FixedBumpArena.allocatorBlockSize
  segments : b'.segments =
    update b.segments p.currSegment
      ⟨c.write (b.dataAt p) p.segmentOffset finish, p.segmentOffset + c.size⟩

theorem allocate_ok {s s' : FixedBumpArena} {size offset : Nat}
    (h : s.allocate size = .ok (s', offset)) :
    offset = s.size ∧ s' = { s with size := s.size + alignUp size 8 } ∧
      s.size + alignUp size 8 ≤ FixedBumpArena.allocatorBlockSize := by
  unfold FixedBumpArena.allocate at h
  split at h
  · rename_i hspace
    obtain ⟨rfl, rfl⟩ := Prod.mk.inj (Except.ok.inj h)
    exact ⟨rfl, rfl, by simpa [FixedBumpArena.hasAvailableSpace] using hspace⟩
  · exact absurd h (by simp)

theorem ensureSegment_ok {size : Nat} (h : b.ensureSegment size = .ok b₁) :
    b₁.segments = b.segments ∧ 0 < b₁.count ∧ (b₁.count = b.count ∨ b₁.count = b.count + 1) := by
  unfold ensureSegment at h
  split at h
  · rename_i hspace
    obtain rfl := Except.ok.inj h
    simp only [lastHasSpace, Bool.and_eq_true, decide_eq_true_eq] at hspace
    exact ⟨rfl, by omega, .inl rfl⟩
  · split at h
    · obtain rfl := Except.ok.inj h
      exact ⟨rfl, Nat.succ_pos _, .inr rfl⟩
    · exact absurd h (by simp)

theorem call_ok (h : b.call finish c = .ok (b', p)) : Called finish b c b' p := by
  obtain ⟨⟨b₂, p₂⟩, hentry, h⟩ := bind_ok.mp h
  obtain ⟨rfl, rfl⟩ := Prod.mk.inj (Except.ok.inj h)
  obtain ⟨b₁, hensure, hentry⟩ := bind_ok.mp hentry
  obtain ⟨⟨s, offset⟩, halloc, hentry⟩ := bind_ok.mp hentry
  obtain ⟨rfl, rfl⟩ := Prod.mk.inj (Except.ok.inj hentry)
  obtain ⟨hsegments, hpos, hcount⟩ := ensureSegment_ok hensure
  obtain ⟨rfl, rfl, hfits⟩ := allocate_ok halloc
  rw [UndoCall.alignUp_size] at hfits
  refine ⟨?_, ?_, ?_, hfits, ?_⟩
  · show b₁.count - 1 + 1 = b.count ∨ b₁.count - 1 = b.count
    omega
  · show b₁.count = b₁.count - 1 + 1
    omega
  · rw [← hsegments]
  · simp [setData, dataAt, hsegments, UndoCall.alignUp_size]

/-! ## What later calls leave -/

/-- The segments of `b` in a later state: the earlier ones as they are, the last
one with more records behind those that it has. -/
structure Extends (b b' : UndoSegments) : Prop where
  count : b.count ≤ b'.count
  earlier : ∀ k, k + 1 < b.count → b'.segments k = b.segments k
  size : ∀ k, k + 1 = b.count →
    (b'.segments k).size = (b.segments k).size ∨ (b.segments k).size + 8 ≤ (b'.segments k).size
  data : ∀ k a, k + 1 = b.count → a < (b.segments k).size ∨
    (b.segments k).size < a ∧ a < (b.segments k).size + 8 → (b'.segments k).data a =
      (b.segments k).data a

theorem Extends.refl (b : UndoSegments) : Extends b b :=
  ⟨le_rfl, fun _ _ => rfl, fun _ _ => .inl rfl, fun _ _ _ _ => rfl⟩

theorem Extends.trans (h₁ : Extends b b₁) (h₂ : Extends b₁ b') : Extends b b' := by
  have hle := h₁.count
  refine ⟨hle.trans h₂.count, fun k hk => ?_, fun k hk => ?_, fun k a hk ha => ?_⟩
  · rw [h₂.earlier k (by omega), h₁.earlier k hk]
  · rcases Nat.lt_or_ge b.count b₁.count with hlt | hge
    · rw [h₂.earlier k (by omega)]
      exact h₁.size k hk
    · have h₁' := h₁.size k hk
      have h₂' := h₂.size k (by omega)
      omega
  · rcases Nat.lt_or_ge b.count b₁.count with hlt | hge
    · rw [h₂.earlier k (by omega)]
      exact h₁.data k a hk ha
    · have hsize := h₁.size k hk
      rw [h₂.data k a (by omega) (by omega), h₁.data k a hk ha]

theorem Called.segments_of_ne (h : Called finish b c b' p) {k : Nat} (hk : k ≠ p.currSegment) :
    b'.segments k = b.segments k := by
  rw [h.segments, update_of_ne hk]

theorem Called.segments_self (h : Called finish b c b' p) : b'.segments p.currSegment =
    ⟨c.write (b.dataAt p) p.segmentOffset finish, p.segmentOffset + c.size⟩ := by
  rw [h.segments, update_self]

theorem Called.extends (h : Called finish b c b' p) : Extends b b' := by
  have hsegment := h.segment
  have hcount := h.count
  have hsize := c.size_ge
  have h40 : undoRecordSize = 40 := rfl
  refine ⟨by omega, fun k hk => h.segments_of_ne (by omega), fun k hk => ?_, fun k a hk ha => ?_⟩
  · by_cases hp : k = p.currSegment
    · subst hp
      rw [h.segments_self, ← h.offset]
      exact .inr (by dsimp only; omega)
    · rw [h.segments_of_ne hp]
      exact .inl rfl
  · by_cases hp : k = p.currSegment
    · subst hp
      rw [h.segments_self]
      rw [← h.offset] at ha
      exact c.write_outside (by omega)
    · rw [h.segments_of_ne hp]

theorem run_nil (h : b.run finish [] = .ok (b', ps)) : b' = b ∧ ps = [] := by
  obtain ⟨rfl, rfl⟩ := Prod.mk.inj (Except.ok.inj h)
  exact ⟨rfl, rfl⟩

theorem run_cons (h : b.run finish (c :: cs) = .ok (b', ps)) :
    ∃ b₁ p ps', Called finish b c b₁ p ∧ b₁.run finish cs = .ok (b', ps') ∧ ps = p :: ps' := by
  obtain ⟨⟨b₁, p⟩, hcall, h⟩ := bind_ok.mp h
  obtain ⟨⟨b₂, ps'⟩, hrun, h⟩ := bind_ok.mp h
  obtain ⟨rfl, rfl⟩ := Prod.mk.inj (Except.ok.inj h)
  exact ⟨b₁, p, ps', call_ok hcall, hrun, rfl⟩

/-- With an empty segment in the pool a call returns. -/
theorem call_returns (finish : Nat) (c : UndoCall) (hobjects : b.count < b.objects)
    (hempty : (b.segments b.count).size = 0) :
    ∃ b₁ p, b.call finish c = .ok (b₁, p) ∧ b₁.objects = b.objects := by
  have hfits := c.size_le
  unfold call newEntry ensureSegment
  cases hspace : b.lastHasSpace c.size with
  | true =>
      simp only [lastHasSpace, Bool.and_eq_true] at hspace
      simp [bind, Except.bind, FixedBumpArena.allocate, hspace.2, setData]
  | false =>
      have : (b.segments b.count).hasAvailableSpace c.size = true := by
        simpa [FixedBumpArena.hasAvailableSpace, hempty, UndoCall.alignUp_size] using hfits
      simp [bind, Except.bind, FixedBumpArena.allocate, hobjects, this, setData]

/-- Calls return as long as the pool has empty segments. -/
theorem run_returns (finish : Nat) (cs : List UndoCall) (hobjects : b.count + cs.length ≤ b.objects)
    (hempty : ∀ k, b.count ≤ k → (b.segments k).size = 0) :
    ∃ b' ps, b.run finish cs = .ok (b', ps) := by
  induction cs generalizing b with
  | nil => exact ⟨b, [], rfl⟩
  | cons c cs ih =>
      rw [List.length_cons] at hobjects
      obtain ⟨b₁, p, hcall, heq⟩ := call_returns finish c (by omega) (hempty _ le_rfl)
      have hcalled := call_ok hcall
      have hcount := hcalled.count
      have hsegment := hcalled.segment
      obtain ⟨b', ps, hrun⟩ := ih (b := b₁) (by omega) fun k hk => by
        rw [hcalled.segments_of_ne (by omega)]
        exact hempty k (by omega)
      exact ⟨b', p :: ps, bind_ok.mpr ⟨_, hcall, bind_ok.mpr ⟨_, hrun, rfl⟩⟩⟩

theorem run_extends (h : b.run finish cs = .ok (b', ps)) : Extends b b' := by
  induction cs generalizing b ps with
  | nil =>
      obtain ⟨rfl, -⟩ := run_nil h
      exact .refl _
  | cons c cs ih =>
      obtain ⟨b₁, p, ps', hcall, hrun, rfl⟩ := run_cons h
      exact hcall.extends.trans (ih hrun)

/-! ## Paths of the iterator -/

/-- From `it` the iterator goes through the records `ps` to the end. -/
def Path (b : UndoSegments) : UndoIterator → List UndoIterator → Prop
  | it, [] => it = b.past
  | it, p :: ps => it = p ∧ p.currSegment < b.count ∧ b.Path (b.next p) ps

theorem ne_past (h : it.currSegment < b.count) : it ≠ b.past := by
  rintro rfl
  exact absurd h (Nat.lt_irrefl _)

/-- What a loop visits is a path to the end, and every path is visited. -/
theorem visits_iff : (∃ fuel, b.visits fuel it = some ps) ↔ b.Path it ps := by
  constructor
  · rintro ⟨fuel, h⟩
    induction fuel generalizing it ps with
    | zero => simp [visits] at h
    | succ fuel ih =>
        unfold visits at h
        split at h
        · rename_i hpast
          obtain rfl := Option.some.inj h
          exact hpast
        · split at h
          · rename_i hlt
            obtain ⟨ps', hrest, rfl⟩ := Option.map_eq_some_iff.mp h
            exact ⟨rfl, hlt, ih hrest⟩
          · exact absurd h (by simp)
  · intro h
    induction ps generalizing it with
    | nil => exact ⟨1, by simp [visits, show it = b.past from h]⟩
    | cons p ps ih =>
        obtain ⟨rfl, hlt, hrest⟩ := h
        obtain ⟨fuel, hfuel⟩ := ih hrest
        exact ⟨fuel + 1, by simp [visits, ne_past hlt, hlt, hfuel]⟩

/-- Where an iterator over `b'` is when it has passed the records of `b`. -/
def cursor (b b' : UndoSegments) : UndoIterator :=
  if b.count = 0 then first
  else b'.settle ⟨b.count - 1, (b.segments (b.count - 1)).size⟩

theorem cursor_self (b : UndoSegments) : b.cursor b = b.past := by
  unfold cursor past
  split
  · rename_i h
    rw [h]
    rfl
  · simp only [settle, if_true]
    rw [Nat.sub_add_cancel (by omega)]

/-- A record is where the iterator is then, if its segment came empty. -/
theorem Called.cursor_eq (h : Called finish b c b₁ p) (he : Extends b₁ b') :
    b.cursor b' = p ↔ (p.currSegment = b.count → p.segmentOffset = 0) := by
  have hcount := h.count
  have hsize := c.size_ge
  have h40 : undoRecordSize = 40 := rfl
  rcases h.segment with hold | hnew
  · -- there was space behind the last record
    have hlast : b.count - 1 = p.currSegment := by omega
    have hgrown := he.size p.currSegment (by omega)
    rw [h.segments_self] at hgrown
    dsimp only at hgrown
    have hne : ¬ p.segmentOffset = (b'.segments p.currSegment).size := by omega
    have hcursor : b.cursor b' = p := by
      unfold cursor
      rw [if_neg (by omega), hlast, ← h.offset]
      exact if_neg hne
    simp only [hcursor, true_iff]
    omega
  · have hcursor : b.cursor b' = ⟨b.count, 0⟩ := by
      unfold cursor
      split
      · rename_i hzero
        rw [hzero]
        rfl
      · have hsame : b'.segments (b.count - 1) = b.segments (b.count - 1) := by
          rw [he.earlier _ (by omega), h.segments_of_ne (by omega)]
        simp only [settle, hsame, if_true]
        rw [Nat.sub_add_cancel (by omega)]
    rw [hcursor]
    constructor
    · rintro rfl _
      rfl
    · intro hzero
      rw [← hnew, ← hzero hnew]

/-! ## Strides -/

/-- What the iterator reads behind the header of a record stays. -/
theorem Called.deltaSize_eq (h : Called finish b c b₁ p) (he : Extends b₁ b') :
    RawRecord.deltaSize (b'.dataAt p) p.segmentOffset =
      RawRecord.deltaSize (b₁.dataAt p) p.segmentOffset := by
  refine RawRecord.deltaSize_congr fun i hi => he.data _ _ h.count.symm ?_
  have hcases := c.size_cases
  rw [h.segments_self]
  dsimp only
  omega

theorem Called.next_eq (h : Called finish b c b₁ p) (he : Extends b₁ b') :
    b'.next p = b'.settle ⟨p.currSegment, (p.segmentOffset +
      (undoRecordSize + RawRecord.deltaSize (b₁.dataAt p) p.segmentOffset)) % 2 ^ 32⟩ := by
  unfold next
  rw [h.deltaSize_eq he]

theorem Called.dataAt_eq (h : Called finish b c b₁ p) :
    b₁.dataAt p = c.write (b.dataAt p) p.segmentOffset finish := by
  unfold dataAt
  rw [h.segments_self]
  rfl

/-- With the right stride the iterator passes the record. -/
theorem Called.next_of_stride (h : Called finish b c b₁ p) (he : Extends b₁ b')
    (hstride : undoRecordSize + RawRecord.deltaSize (b₁.dataAt p) p.segmentOffset = c.size) :
    b'.next p = b₁.cursor b' := by
  have hcount := h.count
  have hfits := h.fits
  have hblock : FixedBumpArena.allocatorBlockSize = 4096 := rfl
  have hlast : b₁.count - 1 = p.currSegment := by omega
  rw [h.next_eq he, hstride, Nat.mod_eq_of_lt (by omega)]
  unfold cursor
  rw [if_neg (by omega), hlast, h.segments_self]

theorem Called.stride_update {slot : Slot} {chunk : ChunkImage}
    (h : Called finish b (.update slot chunk) b₁ p) :
    undoRecordSize + RawRecord.deltaSize (b₁.dataAt p) p.segmentOffset =
      (UndoCall.update slot chunk).size := by
  rw [h.dataAt_eq, UndoCall.deltaSize_update]
  rfl

theorem Called.deltaSize_before (h : Called finish b c b₁ p) (hc : c.isUpdate = false) :
    RawRecord.deltaSize (b₁.dataAt p) p.segmentOffset =
      RawRecord.deltaSize (b.dataAt p) p.segmentOffset := by
  rw [h.dataAt_eq, UndoCall.deltaSize_of_not_update hc]

theorem Called.next_of_zero (h : Called finish b c b₁ p) (he : Extends b₁ b')
    (hc : c.isUpdate = false)
    (hzero : RawRecord.deltaSize (b₁.dataAt p) p.segmentOffset = 0) : b'.next p = b₁.cursor b' :=
  h.next_of_stride he (by rw [hzero, UndoCall.size_of_not_update hc, Nat.add_zero])

/-- Without a delta, the iterator passes the record only if it reads a zero there. -/
theorem Called.zero_of_path (h : Called finish b c b₁ p) (hc : c.isUpdate = false)
    (hrun : b₁.run finish cs = .ok (b', ps)) (hpath : b'.Path (b'.next p) ps) :
    RawRecord.deltaSize (b₁.dataAt p) p.segmentOffset = 0 := by
  have he := run_extends hrun
  have hcount := h.count
  have hfits := h.fits
  have hblock : FixedBumpArena.allocatorBlockSize = 4096 := rfl
  have h40 : undoRecordSize = 40 := rfl
  have hsize := UndoCall.size_of_not_update hc
  have hlt := @RawRecord.deltaSize_lt (b₁.dataAt p) p.segmentOffset
  have hself := h.segments_self
  rw [h.next_eq he] at hpath
  generalize RawRecord.deltaSize (b₁.dataAt p) p.segmentOffset = g at hpath hlt ⊢
  -- it is enough that the iterator comes to the end of the record
  suffices hend :
      (p.segmentOffset + (undoRecordSize + g)) % 2 ^ 32 = p.segmentOffset + undoRecordSize by
    omega
  generalize (p.segmentOffset + (undoRecordSize + g)) % 2 ^ 32 = offset at hpath ⊢
  unfold settle at hpath
  cases cs with
  | nil =>
      -- the last record: the end lies in the next segment
      obtain ⟨rfl, rfl⟩ := run_nil hrun
      have hpast : _ = b'.past := hpath
      rw [hself] at hpast
      dsimp only at hpast
      split at hpast
      · omega
      · have : p.currSegment = b'.count := congrArg UndoIterator.currSegment hpast
        omega
  | cons c' cs =>
      obtain ⟨b₂, q, ps', hcall, hrun', rfl⟩ := run_cons hrun
      have he' := run_extends hrun'
      obtain ⟨hq, -, -⟩ := hpath
      rcases hcall.segment with hold | hnew
      · -- the next record lies in the same segment
        have hqp : q.currSegment = p.currSegment := by omega
        have hoffset := hcall.offset
        rw [hqp, hself] at hoffset
        dsimp only at hq
        split at hq
        · have : p.currSegment + 1 = q.currSegment := congrArg UndoIterator.currSegment hq
          omega
        · have : offset = q.segmentOffset := congrArg UndoIterator.segmentOffset hq
          dsimp only at hoffset
          omega
      · -- the next record starts a segment
        have hsame : b'.segments p.currSegment = b₁.segments p.currSegment := by
          have := hcall.count
          rw [he'.earlier _ (by omega), hcall.segments_of_ne (by omega)]
        dsimp only at hq
        rw [hsame, hself] at hq
        dsimp only at hq
        split at hq
        · omega
        · have : p.currSegment = q.currSegment := by rw [← hq]
          omega

/-! ## When the iterator visits what was created -/

/-- The segments that are not in use are those of the pool, and the last one is
so behind its records. -/
structure Fresh (pool : Nat → FixedBumpArena) (b : UndoSegments) : Prop where
  segments : ∀ k, b.count ≤ k → b.segments k = pool k
  data : ∀ k a, k + 1 = b.count → (b.segments k).size ≤ a → (b.segments k).data a = (pool k).data a

theorem Fresh.call {pool : Nat → FixedBumpArena} (hf : Fresh pool b) (h : Called finish b c b₁ p) :
    Fresh pool b₁ := by
  have hcount := h.count
  have hsegment := h.segment
  refine ⟨fun k hk => ?_, fun k a hk ha => ?_⟩
  · rw [h.segments_of_ne (by omega)]
    exact hf.segments k (by omega)
  · obtain rfl : k = p.currSegment := by omega
    rw [h.segments_self] at ha ⊢
    dsimp only at ha ⊢
    rw [c.write_outside (by omega)]
    rcases hsegment with hold | hnew
    · exact hf.data _ a hold (by rw [← h.offset]; omega)
    · rw [← hf.segments p.currSegment hnew.ge]
      rfl

theorem Fresh.deltaSize {pool : Nat → FixedBumpArena} (hf : Fresh pool b)
    (h : Called finish b c b₁ p) :
    RawRecord.deltaSize (b.dataAt p) p.segmentOffset =
      RawRecord.deltaSize (pool p.currSegment).data p.segmentOffset := by
  refine RawRecord.deltaSize_congr fun i _ => ?_
  rcases h.segment with hold | hnew
  · exact hf.data _ _ hold (by rw [← h.offset]; omega)
  · show (b.segments p.currSegment).data _ = _
    rw [hf.segments _ hnew.ge]

/-- The segments between two states came empty from the pool. -/
def CameEmpty (pool : Nat → FixedBumpArena) (b b' : UndoSegments) : Prop :=
  ∀ k, b.count ≤ k → k < b'.count → (pool k).size = 0

/-- The pool's memory is zero where the iterator looks for the delta of an insert or
a delete. -/
def ZeroBehind (pool : Nat → FixedBumpArena) (created : List (UndoCall × UndoIterator)) : Prop :=
  ∀ x ∈ created, x.1.isUpdate = false →
    RawRecord.deltaSize (pool x.2.currSegment).data x.2.segmentOffset = 0

theorem Called.cameEmpty_iff {pool : Nat → FixedBumpArena} (h : Called finish b c b₁ p)
    (hf : Fresh pool b) (hle : b₁.count ≤ b'.count) : CameEmpty pool b b' ↔
      (p.currSegment = b.count → p.segmentOffset = 0) ∧ CameEmpty pool b₁ b' := by
  have hcount := h.count
  have hsegment := h.segment
  constructor
  · intro hempty
    refine ⟨fun hnew => ?_, fun k hk hk' => hempty k (by omega) hk'⟩
    rw [h.offset, hf.segments _ hnew.ge]
    exact hempty _ hnew.ge (by omega)
  · rintro ⟨hstart, hrest⟩ k hk hk'
    by_cases hp : k = p.currSegment
    · rw [hp, ← hf.segments _ (by omega), ← h.offset]
      exact hstart (by omega)
    · exact hrest k (by omega) hk'

/-- Once past the records of `b`, the iterator visits those of further calls if and
only if their segments came empty and the bytes behind them were zero. -/
theorem path_iff {pool : Nat → FixedBumpArena} (hf : Fresh pool b)
    (hrun : b.run finish cs = .ok (b', ps)) :
    b'.Path (b.cursor b') ps ↔ CameEmpty pool b b' ∧ ZeroBehind pool (cs.zip ps) := by
  induction cs generalizing b ps with
  | nil =>
      obtain ⟨rfl, rfl⟩ := run_nil hrun
      simp only [Path, cursor_self, CameEmpty, ZeroBehind, true_iff]
      exact ⟨fun k hk hk' => by omega, by simp⟩
  | cons c cs ih =>
      obtain ⟨b₁, p, ps', hcall, hrun', rfl⟩ := run_cons hrun
      have he := run_extends hrun'
      have hin : p.currSegment < b'.count := by
        have := hcall.count
        have := he.count
        omega
      have ih := ih (hf.call hcall) hrun'
      rw [hcall.cameEmpty_iff hf he.count]
      simp only [Path, hcall.cursor_eq he, hin, true_and, List.zip_cons_cons, ZeroBehind,
        List.forall_mem_cons]
      change _ ∧ _ ↔ (_ ∧ _) ∧ _ ∧ ZeroBehind pool (cs.zip ps')
      rw [← hf.deltaSize hcall]
      cases hupdate : c.isUpdate with
      | true =>
          obtain ⟨slot, chunk, rfl⟩ : ∃ slot chunk, c = .update slot chunk := by
            cases c <;> simp_all [UndoCall.isUpdate]
          rw [hcall.next_of_stride he hcall.stride_update, ih]
          simp [and_assoc]
      | false =>
          rw [← hcall.deltaSize_before hupdate]
          constructor
          · rintro ⟨hstart, hpath⟩
            have hzero := hcall.zero_of_path hupdate hrun' hpath
            rw [hcall.next_of_zero he hupdate hzero, ih] at hpath
            exact ⟨⟨hstart, hpath.1⟩, fun _ => hzero, hpath.2⟩
          · rintro ⟨⟨hstart, hempty⟩, hzero, hbehind⟩
            refine ⟨hstart, ?_⟩
            rw [hcall.next_of_zero he hupdate (hzero rfl), ih]
            exact ⟨hempty, hbehind⟩

/-! ## The records do not overlap -/

/-- The header of `q` lies behind that of `p`. -/
def Apart (p q : UndoIterator) : Prop :=
  p.currSegment < q.currSegment ∨
    p.currSegment = q.currSegment ∧ p.segmentOffset + undoRecordSize ≤ q.segmentOffset

/-- The record lies behind those of `b`. -/
def Beyond (b : UndoSegments) (q : UndoIterator) : Prop :=
  b.count ≤ q.currSegment ∨
    q.currSegment + 1 = b.count ∧ (b.segments q.currSegment).size ≤ q.segmentOffset

theorem Called.beyond (h : Called finish b c b₁ p) : Beyond b p := by
  rcases h.segment with hold | hnew
  · exact .inr ⟨hold, h.offset.ge⟩
  · exact .inl hnew.ge

theorem Beyond.of_called (h : Called finish b c b₁ p) (hq : Beyond b₁ q) :
    Apart p q ∧ Beyond b q := by
  have hcount := h.count
  have hsegment := h.segment
  have hsize := c.size_ge
  rcases hq with hq | ⟨hq, hle⟩
  · exact ⟨.inl (by omega), .inl (by omega)⟩
  · have hqp : q.currSegment = p.currSegment := by omega
    rw [hqp, h.segments_self] at hle
    dsimp only at hle
    refine ⟨.inr ⟨hqp.symm, by omega⟩, ?_⟩
    rcases hsegment with hold | hnew
    · refine .inr ⟨by omega, ?_⟩
      rw [hqp, ← h.offset]
      omega
    · exact .inl (by omega)

/-- No two records overlap. -/
theorem created_apart (hrun : b.run finish cs = .ok (b', ps)) :
    ps.Pairwise Apart ∧ ∀ q ∈ ps, Beyond b q := by
  induction cs generalizing b ps with
  | nil =>
      obtain ⟨rfl, rfl⟩ := run_nil hrun
      exact ⟨.nil, by simp⟩
  | cons c cs ih =>
      obtain ⟨b₁, p, ps', hcall, hrun', rfl⟩ := run_cons hrun
      obtain ⟨hapart, hbeyond⟩ := ih hrun'
      refine ⟨List.pairwise_cons.mpr ⟨fun q hq => ?_, hapart⟩, fun q hq => ?_⟩
      · exact (Beyond.of_called hcall (hbeyond q hq)).1
      · rcases List.mem_cons.mp hq with rfl | hq
        · exact hcall.beyond
        · exact (Beyond.of_called hcall (hbeyond q hq)).2

theorem nodup_of_apart (h : ps.Pairwise Apart) : ps.Nodup := by
  refine h.imp fun hpq heq => ?_
  subst heq
  have h40 : undoRecordSize = 40 := rfl
  rcases hpq with hlt | ⟨-, hle⟩ <;> omega

/-! ## `RestampVersions` -/

/-- All records of `ps` and nothing else have been stamped. -/
structure Restamped (b b' : UndoSegments) (ps : List UndoIterator) (time : Nat) : Prop where
  stamped : ∀ p ∈ ps, RawRecord.getTimestamp (b'.dataAt p) p.segmentOffset = time % 2 ^ 64
  untouched :
    ∀ k a, (∀ p ∈ ps, p.currSegment = k → a < p.segmentOffset + 16 ∨ p.segmentOffset + 24 ≤ a) →
    (b'.segments k).data a = (b.segments k).data a
  size : ∀ k, (b'.segments k).size = (b.segments k).size
  count : b'.count = b.count

section Restamp

variable {time : Nat}

theorem setTimestamp_data {k a : Nat}
    (h : p.currSegment = k → a < p.segmentOffset + 16 ∨ p.segmentOffset + 24 ≤ a) :
    ((b.setTimestamp time p).segments k).data a = (b.segments k).data a := by
  by_cases hk : k = p.currSegment
  · subst hk
    simp only [setTimestamp, setData, update_self]
    exact RawRecord.setTimestamp_outside (h rfl)
  · simp [setTimestamp, setData, update_of_ne hk]

theorem setTimestamp_size (k : Nat) :
    ((b.setTimestamp time p).segments k).size = (b.segments k).size := by
  by_cases hk : k = p.currSegment
  · subst hk
    simp [setTimestamp, setData]
  · simp [setTimestamp, setData, update_of_ne hk]

/-- A stamp does not change where the iterator goes from this record or a later one. -/
theorem next_setTimestamp (h : p.currSegment = q.currSegment → p.segmentOffset ≤ q.segmentOffset) :
    (b.setTimestamp time p).next q = b.next q := by
  have hsize : RawRecord.deltaSize ((b.setTimestamp time p).dataAt q) q.segmentOffset =
      RawRecord.deltaSize (b.dataAt q) q.segmentOffset := by
    refine RawRecord.deltaSize_congr fun i _ => setTimestamp_data fun hk => .inr ?_
    have := h hk
    have h40 : undoRecordSize = 40 := rfl
    omega
  unfold next settle
  rw [hsize]
  simp only [setTimestamp_size]

theorem path_setTimestamp
    (h : ∀ q ∈ ps, p.currSegment = q.currSegment → p.segmentOffset ≤ q.segmentOffset) :
    (b.setTimestamp time p).Path it ps ↔ b.Path it ps := by
  induction ps generalizing it with
  | nil => exact Iff.rfl
  | cons q ps ih =>
      unfold Path
      rw [next_setTimestamp (h q List.mem_cons_self),
        ih fun r hr => h r (List.mem_cons_of_mem _ hr)]
      exact Iff.rfl

theorem Apart.le (h : Apart p q) (hpq : p.currSegment = q.currSegment) :
    p.segmentOffset + undoRecordSize ≤ q.segmentOffset := by
  rcases h with hlt | ⟨-, hle⟩ <;> omega

/-- Along a path `RestampVersions` stamps each record in turn. -/
theorem restamp_path (hpath : b.Path it ps) (hapart : ps.Pairwise Apart) : ∃ fuel b',
    restampVersions time fuel b it = some b' ∧ Restamped b b' ps time := by
  induction ps generalizing b it with
  | nil =>
      have hpast : it = b.past := hpath
      exact ⟨1, b, by simp [restampVersions, hpast], by simp, fun _ _ _ => rfl, fun _ => rfl, rfl⟩
  | cons p ps ih =>
      obtain ⟨rfl, hlt, hrest⟩ := hpath
      obtain ⟨hhead, hapart⟩ := List.pairwise_cons.mp hapart
      have hle : ∀ q ∈ ps, it.currSegment = q.currSegment → it.segmentOffset ≤ q.segmentOffset := by
        intro q hq hseg
        exact le_trans (Nat.le_add_right _ _) ((hhead q hq).le hseg)
      have hrest' : (b.setTimestamp time it).Path ((b.setTimestamp time it).next it) ps := by
        rw [path_setTimestamp hle, next_setTimestamp fun _ => le_rfl]
        exact hrest
      obtain ⟨fuel, b', hfuel, hstamps⟩ := ih hrest' hapart
      refine ⟨fuel + 1, b', by simp [restampVersions, ne_past hlt, hlt, hfuel], fun q hq => ?_,
        fun k a ha => ?_, fun k => ?_, hstamps.count⟩
      · rcases List.mem_cons.mp hq with rfl | hq
        · -- the later stamps do not reach this record
          have hkept : RawRecord.getTimestamp (b'.dataAt q) q.segmentOffset =
              RawRecord.getTimestamp ((b.setTimestamp time q).dataAt q) q.segmentOffset := by
            have hread : (b'.dataAt q).read (q.segmentOffset + 16) 8 =
                ((b.setTimestamp time q).dataAt q).read (q.segmentOffset + 16) 8 := by
              refine Mem.read_congr fun i hi => hstamps.untouched _ _ fun r hr hseg => .inl ?_
              have := (hhead r hr).le hseg.symm
              have h40 : undoRecordSize = 40 := rfl
              omega
            unfold RawRecord.getTimestamp
            rw [hread]
          rw [hkept]
          simp only [setTimestamp, setData, dataAt, update_self]
          exact RawRecord.getTimestamp_setTimestamp
        · exact hstamps.stamped q hq
      · rw [hstamps.untouched k a fun q hq => ha q (List.mem_cons_of_mem _ hq)]
        exact setTimestamp_data (ha it List.mem_cons_self)
      · rw [hstamps.size, setTimestamp_size]

end Restamp

end Calls

/-- The iteration visits the records `ps`, each once and in this order, and stops;
and `RestampVersions` stamps them and nothing else. -/
def IteratesOver (b : UndoSegments) (ps : List UndoIterator) : Prop :=
  ps.Nodup ∧ (∃ fuel, b.visits fuel first = some ps) ∧
    ∀ time, ∃ fuel b', restampVersions time fuel b first = some b' ∧ Restamped b b' ps time

/-- **The iteration is right if and only if** the segments came empty from the pool,
and their memory was zero where the iterator looks for the size of a delta behind
the header of an insert or a delete. -/
theorem undo_iteration (pool : Nat → FixedBumpArena) (objects finish : Nat) (calls : List UndoCall)
    (b : UndoSegments) (ps : List UndoIterator)
    (hrun : (init pool objects).run finish calls = .ok (b, ps)) :
    b.IteratesOver ps ↔ CameEmpty pool (init pool objects) b ∧ ZeroBehind pool (calls.zip ps) := by
  have hfresh : Fresh pool (init pool objects) :=
    ⟨fun _ _ => rfl, fun k a hk _ => absurd hk (by simp [init])⟩
  have hiff := path_iff hfresh hrun
  have hfirst : (init pool objects).cursor b = first := rfl
  obtain ⟨hapart, -⟩ := created_apart hrun
  rw [hfirst] at hiff
  constructor
  · rintro ⟨-, hvisits, -⟩
    exact hiff.mp (visits_iff.mp hvisits)
  · intro hclean
    have hpath := hiff.mpr hclean
    exact ⟨nodup_of_apart hapart, visits_iff.mpr hpath, fun time => restamp_path hpath hapart⟩

/-- A chunk with a `BIGINT` column. -/
def bigintChunk : ChunkImage :=
  DataChunkLayout.image [7] [8] rfl (by decide) (by decide)

/-- Empty segments whose memory holds the byte `n` everywhere. -/
def filledPool (n : Nat) : Nat → FixedBumpArena := fun _ => ⟨fun _ => byte n, 0⟩

/-- An insert, two updates and a delete. -/
def mixedCalls : List UndoCall :=
  [.insert ⟨1, 2, 3⟩, .update ⟨1, 2, 3⟩ bigintChunk, .update ⟨1, 2, 4⟩ bigintChunk,
    .delete ⟨1, 2, 3⟩]

/-- In memory that was zero. -/
theorem undo_iteration_zero : ∃ b ps, (init (filledPool 0) 4).run 9 mixedCalls = .ok (b, ps) ∧
    ps = [⟨0, 0⟩, ⟨0, 40⟩, ⟨0, 104⟩, ⟨0, 168⟩] ∧ b.IteratesOver ps := by
  have hrecords : ((init (filledPool 0) 4).run 9 mixedCalls).map Prod.snd =
      .ok [⟨0, 0⟩, ⟨0, 40⟩, ⟨0, 104⟩, ⟨0, 168⟩] := rfl
  obtain ⟨b, ps, hrun⟩ :=
    run_returns (b := init (filledPool 0) 4) 9 mixedCalls (by decide) fun _ _ => rfl
  rw [hrun] at hrecords
  obtain rfl : ps = _ := Except.ok.inj hrecords
  refine ⟨b, _, hrun, rfl, (undo_iteration _ _ _ _ _ _ hrun).mpr ⟨fun _ _ _ => rfl, ?_⟩⟩
  unfold ZeroBehind
  decide

/-- One insert into an empty segment whose memory was not zero: the iterator does
not come to the end. -/
theorem iteration_astray : ¬ ∀ pool : Nat → FixedBumpArena, (∀ k, (pool k).size = 0) →
    ∀ objects finish calls b ps, (init pool objects).run finish calls = .ok (b, ps) →
      b.IteratesOver ps := by
  intro hall
  obtain ⟨-, hvisits, -⟩ := hall (filledPool 1) (fun _ => rfl) 1 9 [.insert ⟨1, 2, 3⟩] _ _ rfl
  obtain ⟨-, -, hnext⟩ := visits_iff.mp hvisits
  have hend : UndoSegments.next _ _ = UndoSegments.past _ := hnext
  revert hend
  decide

end UndoSegments

end Db7
