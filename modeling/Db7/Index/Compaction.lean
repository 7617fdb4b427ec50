import Db7.Index.Records

/-!
# Compaction

`CompactHeap` takes the tuples from the highest record to the lowest and moves
each one up against those before it. No assertion fails and no record is
overwritten before it has moved (`Compacting.step`): when the record at `o` is
taken, everything above `o` is packed, so the new place is not below `o`, and
the records still to come end at or below `o`.
-/

namespace Db7

open Lib Function

namespace Layout

variable {lay : Layout} {left pg : BtreePage}

/-- The footprint of tuple `i` of the page before. -/
def tupleFoot (lay : Layout) (left : BtreePage) (i : Nat) : Nat := lay.recFoot left (left.slot i)

/-- `CompactHeap` in the middle of its loop: the tuples `done` have moved, the
tuples `todo` have not. -/
structure Compacting (lay : Layout) (left pg : BtreePage) (done todo : List Nat) : Prop where
  aligned : pg.heapOffset % lay.align = 0
  filled : pg.heapOffset + (done.map (lay.tupleFoot left)).sum = db7PageSize
  page : pg = { left with heapOffset := pg.heapOffset, slots := pg.slots, heap := pg.heap }
  length : pg.slots.length = left.slots.length
  slot : ∀ i, i ∉ done → pg.slot i = left.slot i
  below : ∀ i ∈ todo, left.slot i + lay.tupleFoot left i ≤ pg.heapOffset
  heap : ∀ i ∈ todo, ∀ a, left.slot i ≤ a → a < left.slot i + lay.tupleFoot left i →
    pg.heap a = left.heap a
  inHeap : ∀ i ∈ done, pg.heapOffset ≤ pg.slot i ∧ pg.slot i + lay.tupleFoot left i ≤ db7PageSize
  bytes : ∀ i ∈ done, ∀ k, k < lay.hdrSize + lay.slotLen left (left.slot i) →
    pg.heap (pg.slot i + k) = left.heap (left.slot i + k)
  apart : done.Pairwise fun i j =>
    pg.slot i + lay.tupleFoot left i ≤ pg.slot j ∨ pg.slot j + lay.tupleFoot left j ≤ pg.slot i
  lowest : ∀ i, done.head? = some i → pg.slot i = pg.heapOffset

/-- A tuple that has moved is the tuple that it was. -/
theorem Compacting.record {done todo : List Nat} (h : Compacting lay left pg done todo) {i : Nat}
    (hi : i ∈ done) :
    lay.slotLen pg (pg.slot i) = lay.slotLen left (left.slot i) ∧
      lay.entry pg (pg.slot i) = lay.entry left (left.slot i) :=
  record_copy (h.bytes i hi)

/-- A block that is copied within memory. -/
theorem write_read_apply {m : Mem} {src dst n k : Nat} (hk : k < n) :
    m.write dst (m.read src n) (dst + k) = m (src + k) := by
  have hlen : k < (m.read src n).length := by simpa using hk
  rw [Mem.write, if_pos (by omega), Nat.add_sub_cancel_left, List.getD_eq_getElem?_getD,
    List.getElem?_eq_getElem hlen]
  simp [Mem.read]

theorem slot_set {i j off : Nat} (hi : i < pg.slots.length) :
    BtreePage.slot { pg with slots := pg.slots.set i off } j = if j = i then off
      else pg.slot j := by
  by_cases hji : j = i
  · subst hji
    simp [BtreePage.slot, List.getD_eq_getElem?_getD, hi]
  · simp [BtreePage.slot, List.getD_eq_getElem?_getD, Ne.symm hji, hji]

theorem Compacting.step {i : Nat} {done todo : List Nat}
    (h : Compacting lay left pg done (i :: todo)) (hi : i < left.slots.length) (hdone : i ∉ done)
    (hbelow : ∀ j ∈ todo, left.slot j + lay.tupleFoot left j ≤ left.slot i) :
    ∃ pg', lay.compactOne pg i = .ok pg' ∧ Compacting lay left pg' (i :: done) todo := by
  have hmem : i ∈ i :: todo := List.mem_cons_self
  have hslot : pg.slot i = left.slot i := h.slot i hdone
  have hpage : db7PageSize = 8192 := rfl
  obtain ⟨hlen, hentry⟩ := @record_congr lay left pg (left.slot i)
    (h.heap i hmem)
  have hfoot : lay.foot (lay.slotLen pg (pg.slot i)) = lay.tupleFoot left i := by
    rw [hslot, hlen]; rfl
  have hfit := h.below i hmem
  have hfilled := h.filled
  have hadd := calculateHeapOffset_add lay h.aligned (by omega)
    (show lay.foot (lay.slotLen pg (pg.slot i)) ≤ pg.heapOffset by omega)
  have hle := lay.le_foot (lay.slotLen pg (pg.slot i))
  generalize hoff : lay.calculateHeapOffset pg.heapOffset (lay.slotLen pg (pg.slot i)) = off at hadd
  have hlength : i < pg.slots.length := by rw [h.length]; exact hi
  refine ⟨{ pg with
    heap := pg.heap.write off (pg.heap.read (pg.slot i) (lay.hdrSize + lay.slotLen pg (pg.slot i)))
    heapOffset := off
    slots := pg.slots.set i off }, ?_, ?_⟩
  · have hassert : assertThat (decide (off ≥ pg.slot i)) "compaction must not move tuples down" =
        .ok () := assertThat_ok.mpr (by simp; omega)
    simp only [compactOne, moveHeap, hoff, hassert, bind, Except.bind]
    rw [if_pos (by omega)]
  · generalize hpg' : ({ pg with
      heap :=
        pg.heap.write off (pg.heap.read (pg.slot i) (lay.hdrSize + lay.slotLen pg (pg.slot i)))
      heapOffset := off
      slots := pg.slots.set i off } : BtreePage) = pg'
    have hoff' : pg'.heapOffset = off := by rw [← hpg']
    have hslots : ∀ j, pg'.slot j = if j = i then off else pg.slot j := by
      intro j
      rw [← hpg']
      exact slot_set hlength
    have hlow : ∀ a, a < off → pg'.heap a = pg.heap a := by
      intro a ha
      rw [← hpg']
      exact Mem.write_of_lt ha
    have hhigh : ∀ a, pg.heapOffset ≤ a → pg'.heap a = pg.heap a := by
      intro a ha
      rw [← hpg']
      exact Mem.write_of_ge (by simp; omega)
    have hnew : ∀ k, k < lay.hdrSize + lay.slotLen left (left.slot i) → pg'.heap (off + k) =
        left.heap (left.slot i + k) := by
      intro k hk
      have hcopy : pg'.heap (off + k) = pg.heap (pg.slot i + k) := by
        rw [← hpg']
        exact write_read_apply (by rw [hslot, hlen]; exact hk)
      have hinside : left.slot i + k < left.slot i + lay.tupleFoot left i :=
        Nat.add_lt_add_left (Nat.lt_of_lt_of_le hk (lay.le_foot _)) _
      rw [hcopy, hslot]
      exact h.heap i hmem _ (Nat.le_add_right _ _) hinside
    have hne : ∀ j ∈ done, j ≠ i := fun j hj hji => hdone (hji ▸ hj)
    refine ⟨?_, ?_, ?_, ?_, fun j hj => ?_, fun j hj => ?_, fun j hj a hja haj => ?_,
      fun j hj => ?_,
      fun j hj => ?_, ?_, fun j hj => ?_⟩
    · have hmod := h.aligned
      have hfmod := lay.foot_mod (lay.slotLen pg (pg.slot i))
      rw [hoff']
      rw [← hadd] at hmod
      cases lay <;> simp only [align] at hmod hfmod ⊢ <;> omega
    · rw [hoff', List.map_cons, List.sum_cons]
      omega
    · rw [← hpg', h.page]
    · rw [← hpg', List.length_set, h.length]
    · rw [List.mem_cons, not_or] at hj
      rw [hslots, if_neg hj.1, h.slot j hj.2]
    · have := hbelow j hj
      rw [hoff']
      omega
    · have := hbelow j hj
      rw [hlow a (by omega), h.heap j (List.mem_cons_of_mem _ hj) a hja haj]
    · rcases List.mem_cons.mp hj with rfl | hj
      · rw [hslots, if_pos rfl, hoff']
        omega
      · have := h.inHeap j hj
        rw [hslots, if_neg (hne j hj), hoff']
        omega
    · rcases List.mem_cons.mp hj with rfl | hj
      · rw [hslots, if_pos rfl]
        exact hnew
      · rw [hslots, if_neg (hne j hj)]
        intro k hk
        rw [hhigh _ ((h.inHeap j hj).1.trans (Nat.le_add_right _ _))]
        exact h.bytes j hj k hk
    · refine List.pairwise_cons.mpr ⟨fun j hj => .inl ?_,
        h.apart.imp_of_mem fun {a b} ha hb hab => ?_⟩
      · have := (h.inHeap j hj).1
        rw [hslots, hslots, if_pos rfl, if_neg (hne j hj)]
        omega
      · rw [hslots, hslots, if_neg (hne a ha), if_neg (hne b hb)]
        exact hab
    · obtain rfl : i = j := Option.some.inj hj
      rw [hslots, if_pos rfl, hoff']

theorem Compacting.foldlM : ∀ {todo : List Nat} {pg : BtreePage} {done : List Nat},
    Compacting lay left pg done todo → (∀ i ∈ todo, i < left.slots.length) → todo.Nodup →
    (∀ i ∈ todo, i ∉ done) →
    (todo.Pairwise fun i j => left.slot j + lay.tupleFoot left j ≤ left.slot i) →
    ∃ pg', todo.foldlM lay.compactOne pg = .ok pg' ∧
      Compacting lay left pg' (todo.reverse ++ done) []
  | [], pg, done, h, _, _, _, _ => ⟨pg, rfl, h⟩
  | i :: todo, pg, done, h, hlt, hnd, hdone, hdesc => by
      obtain ⟨hbelow, hdesc⟩ := List.pairwise_cons.mp hdesc
      obtain ⟨hi, hnd⟩ := List.nodup_cons.mp hnd
      obtain ⟨pg₁, hok, h₁⟩ := h.step (hlt i List.mem_cons_self) (hdone i List.mem_cons_self) hbelow
      obtain ⟨pg', hok', h'⟩ := h₁.foldlM (fun j hj => hlt j (List.mem_cons_of_mem _ hj)) hnd
        (fun j hj hj' => by
          rcases List.mem_cons.mp hj' with rfl | hj'
          · exact hi hj
          · exact hdone j (List.mem_cons_of_mem _ hj) hj') hdesc
      refine ⟨pg', ?_, by simpa using h'⟩
      rw [List.foldlM_cons, hok]
      exact hok'

theorem map_slot_range {n : Nat} (hn : n ≤ pg.slots.length) :
    (List.range n).map pg.slot = pg.slots.take n := by
  refine List.ext_getElem (by simp [hn]) fun i hi hi' => ?_
  have hlt : i < pg.slots.length := by
    simp only [List.length_map, List.length_range] at hi
    omega
  simp [BtreePage.slot, List.getD_eq_getElem?_getD, hlt]

/-- `pg` is `left` with its first `n` tuples packed against the end. -/
structure Compacted (lay : Layout) (left pg : BtreePage) (n : Nat) : Prop where
  aligned : pg.heapOffset % lay.align = 0
  filled : pg.heapOffset + ((left.slots.take n).map (lay.recFoot left)).sum = db7PageSize
  page : pg = { left with heapOffset := pg.heapOffset, slots := pg.slots, heap := pg.heap }
  length : pg.slots.length = left.slots.length
  entries : (pg.slots.take n).map (lay.entry pg) = (left.slots.take n).map (lay.entry left)
  foots : (pg.slots.take n).map (lay.recFoot pg) = (left.slots.take n).map (lay.recFoot left)
  inHeap : ∀ o ∈ pg.slots.take n, pg.heapOffset ≤ o ∧ o + lay.recFoot pg o ≤ db7PageSize
  apart : (pg.slots.take n).Pairwise fun a b => a + lay.recFoot pg a ≤ b ∨ b + lay.recFoot pg b ≤ a

/-- Two tuples of a page do not overlap. -/
theorem PageInv.tuples_apart (h : PageInv lay left) {i j : Nat} (hij : i ≠ j)
    (hi : i < left.slots.length) (hj : j < left.slots.length) :
    left.slot i + lay.tupleFoot left i ≤ left.slot j ∨
      left.slot j + lay.tupleFoot left j ≤ left.slot i := by
  have hget : ∀ k (hk : k < left.slots.length), left.slot k = left.slots[k] := by
    intro k hk
    simp [BtreePage.slot, List.getD_eq_getElem?_getD, hk]
  have hpw := List.pairwise_iff_getElem.mp h.apart
  unfold tupleFoot
  rw [hget i hi, hget j hj]
  rcases Nat.lt_or_gt_of_ne hij with hlt | hgt
  · exact hpw i j hi hj hlt
  · exact (hpw j i hj hi hgt).symm

/-- The bytes of the first `n` tuples, with their padding, lie in the page and apart. -/
structure Footprints (lay : Layout) (left : BtreePage) (n : Nat) : Prop where
  count : n ≤ left.slots.length
  inPage : ∀ i < n, left.slot i + lay.tupleFoot left i ≤ db7PageSize
  apart : ∀ i < n, ∀ j < n, i ≠ j →
    left.slot i + lay.tupleFoot left i ≤ left.slot j ∨
      left.slot j + lay.tupleFoot left j ≤ left.slot i

theorem PageInv.footprints (h : PageInv lay left) {n : Nat} (hn : n ≤ left.slots.length) :
    Footprints lay left n where
  count := hn
  inPage i hi := by
    have hlt := hi.trans_le hn
    refine (h.inHeap _ ?_).2
    simp [BtreePage.slot, List.getD_eq_getElem?_getD, hlt]
  apart _ hi _ hj hij := h.tuples_apart hij (hi.trans_le hn) (hj.trans_le hn)

/-- The loop of `CompactHeap`, from its start to its end. -/
theorem compactHeap_compacting {n : Nat} (h : Footprints lay left n) :
    ∃ pg done, lay.compactHeap { left with heapOffset := db7PageSize } n = .ok pg ∧
      done.Perm (List.range n) ∧
      Compacting lay left pg done [] := by
  generalize hidx : (List.range n).insertionSort (fun a b => left.slot a ≥ left.slot b) = indexes
  have hperm : indexes.Perm (List.range n) := hidx ▸ List.perm_insertionSort _ _
  have hmem : ∀ i, i ∈ indexes → i < n := fun i hi => List.mem_range.mp (hperm.mem_iff.mp hi)
  have hlt : ∀ i ∈ indexes, i < left.slots.length := fun i hi => (hmem i hi).trans_le h.count
  have hnd : indexes.Nodup := hperm.nodup_iff.mpr List.nodup_range
  have hdesc : indexes.Pairwise fun i j => left.slot j + lay.tupleFoot left j ≤ left.slot i := by
    have hsorted : indexes.Pairwise fun a b => left.slot a ≥ left.slot b :=
      hidx ▸ List.pairwise_insertionSort _ _
    refine (hsorted.and hnd).imp_of_mem fun {i j} hi hj hij => ?_
    have hpos : 0 < lay.tupleFoot left i := lay.foot_pos _
    rcases h.apart i (hmem i hi) j (hmem j hj) hij.2 with hab | hba
    · have := hij.1
      omega
    · exact hba
  have halign : db7PageSize % lay.align = 0 := by cases lay <;> decide
  have hstart : Compacting lay left { left with heapOffset := db7PageSize } [] indexes :=
    ⟨halign, by simp, rfl, rfl, fun _ _ => rfl,
      fun i hi => h.inPage i (hmem i hi), fun _ _ _ _ _ => rfl, by simp, by simp, .nil, by simp⟩
  obtain ⟨pg, hok, hc⟩ := hstart.foldlM hlt hnd (by simp) hdesc
  rw [List.append_nil] at hc
  refine ⟨pg, indexes.reverse, ?_, (List.reverse_perm _).trans hperm, hc⟩
  rw [compactHeap, assertThat, if_pos (by simp)]
  show List.foldlM lay.compactOne _ (List.insertionSort _ _) = _
  exact hidx ▸ hok

theorem compactHeap_ok (h : PageInv lay left) {n : Nat} (hn : n ≤ left.slots.length) :
    ∃ pg, lay.compactHeap { left with heapOffset := db7PageSize } n = .ok pg ∧
      Compacted lay left pg n := by
  obtain ⟨pg, done, hok, hperm, hc⟩ := compactHeap_compacting (h.footprints hn)
  have hin : ∀ i, i < n → i ∈ done := fun i hi => hperm.mem_iff.mpr (List.mem_range.mpr hi)
  have hn' : n ≤ pg.slots.length := by rw [hc.length]; exact hn
  have hfoot : ∀ i, i < n → lay.recFoot pg (pg.slot i) = lay.tupleFoot left i := fun i hi => by
    rw [recFoot, (hc.record (hin i hi)).1]; rfl
  refine ⟨pg, hok, hc.aligned, ?_, hc.page, hc.length, ?_, ?_, fun o ho => ?_, ?_⟩
  · rw [← map_slot_range hn, List.map_map, ← hc.filled, (hperm.map _).sum_nat]
    rfl
  · rw [← map_slot_range hn', ← map_slot_range hn, List.map_map, List.map_map]
    exact List.map_congr_left fun i hi => (hc.record (hin i (List.mem_range.mp hi))).2
  · rw [← map_slot_range hn', ← map_slot_range hn, List.map_map, List.map_map]
    exact List.map_congr_left fun i hi => hfoot i (List.mem_range.mp hi)
  · rw [← map_slot_range hn'] at ho
    obtain ⟨i, hi, rfl⟩ := List.mem_map.mp ho
    rw [hfoot i (List.mem_range.mp hi)]
    exact hc.inHeap i (hin i (List.mem_range.mp hi))
  · rw [← map_slot_range hn', List.pairwise_map]
    refine ((hperm.pairwise_iff fun {a b} hab => hab.symm).mp hc.apart).imp_of_mem
      fun {a b} ha hb hab => ?_
    rw [hfoot a (List.mem_range.mp ha), hfoot b (List.mem_range.mp hb)]
    exact hab

/-! ## Pages with dead records -/

/-- The first `n` slots point, in any order, at aligned records behind the slots, in the page and
apart. Nothing is said of the bytes between them. -/
structure LiveRecords (lay : Layout) (left : BtreePage) (n : Nat) : Prop where
  count : n ≤ left.slots.length
  aligned : ∀ i < n, left.slot i % lay.align = 0
  behind : ∀ i < n, headerSize + 2 * left.count ≤ left.slot i
  inPage : ∀ i < n, left.slot i + (lay.hdrSize + lay.slotLen left (left.slot i)) ≤ db7PageSize
  apart : ∀ i < n, ∀ j < n, i ≠ j →
    left.slot i + (lay.hdrSize + lay.slotLen left (left.slot i)) ≤ left.slot j ∨
      left.slot j + (lay.hdrSize + lay.slotLen left (left.slot j)) ≤ left.slot i

/-- The padding of an aligned record ends at or before the next aligned offset. -/
theorem foot_end_le {o o' len : Nat} (ho : o % lay.align = 0) (ho' : o' % lay.align = 0)
    (hle : o + (lay.hdrSize + len) ≤ o') : o + lay.foot len ≤ o' := by
  have hgap : (o' - o) % lay.align = 0 := by cases lay <;> simp only [align] at ho ho' ⊢ <;> omega
  have hfoot := foot_le_of_aligned hgap (show lay.hdrSize + len ≤ o' - o by omega)
  omega

theorem LiveRecords.footprints {n : Nat} (h : LiveRecords lay left n) : Footprints lay left n where
  count := h.count
  inPage i hi := foot_end_le (h.aligned i hi) (by cases lay <;> rfl) (h.inPage i hi)
  apart i hi j hj hij := by
    rcases h.apart i hi j hj hij with hbefore | hafter
    · exact .inl (foot_end_le (h.aligned i hi) (h.aligned j hj) hbefore)
    · exact .inr (foot_end_le (h.aligned j hj) (h.aligned i hi) hafter)

/-- The first `n` records of `left` are packed against the end of `pg`, each as it was. -/
structure PackedRecords (lay : Layout) (left pg : BtreePage) (n : Nat) : Prop where
  page : pg = { left with heapOffset := pg.heapOffset, slots := pg.slots, heap := pg.heap }
  length : pg.slots.length = left.slots.length
  rest : ∀ i, n ≤ i → pg.slot i = left.slot i
  len : ∀ i < n, lay.slotLen pg (pg.slot i) = lay.slotLen left (left.slot i)
  child : ∀ i < n, lay.slotChild pg (pg.slot i) = lay.slotChild left (left.slot i)
  bytes : ∀ i < n, pg.heap.read (pg.slot i) (lay.hdrSize + lay.slotLen left (left.slot i)) =
    left.heap.read (left.slot i) (lay.hdrSize + lay.slotLen left (left.slot i))
  inHeap : ∀ i < n, pg.heapOffset ≤ pg.slot i ∧ pg.slot i + lay.tupleFoot left i ≤ db7PageSize
  apart : ∀ i < n, ∀ j < n, i ≠ j →
    pg.slot i + lay.tupleFoot left i ≤ pg.slot j ∨ pg.slot j + lay.tupleFoot left j ≤ pg.slot i
  filled : pg.heapOffset + ((List.range n).map (lay.tupleFoot left)).sum = db7PageSize
  lowest : n = 0 ∧ pg.heapOffset = db7PageSize ∨ ∃ i < n, pg.slot i = pg.heapOffset

theorem pairwise_range {R : Nat → Nat → Prop} {n i j : Nat} (h : (List.range n).Pairwise R)
    (hij : i < j) (hj : j < n) : R i j := by
  have hlen : (List.range n).length = n := List.length_range
  have hget := List.pairwise_iff_getElem.mp h i j (by omega) (by omega) hij
  rw [List.getElem_range, List.getElem_range] at hget
  exact hget

/-- `CompactHeap` packs the live records, whatever lies between them. -/
theorem compactHeap_packs {n : Nat} (h : LiveRecords lay left n) :
    ∃ pg, lay.compactHeap { left with heapOffset := db7PageSize } n = .ok pg ∧
      PackedRecords lay left pg n := by
  obtain ⟨pg, done, hok, hperm, hc⟩ := compactHeap_compacting h.footprints
  have hdone : ∀ i, i ∈ done ↔ i < n := fun i => hperm.mem_iff.trans List.mem_range
  refine ⟨pg, hok, hc.page, hc.length, ?_, ?_, ?_, ?_, ?_, ?_, ?_, ?_⟩
  · intro i hi
    exact hc.slot i fun hmem => Nat.not_lt.mpr hi ((hdone i).mp hmem)
  · intro i hi
    exact (hc.record ((hdone i).mpr hi)).1
  · intro i hi
    exact (Prod.mk.inj (hc.record ((hdone i).mpr hi)).2).2
  · intro i hi
    exact List.map_congr_left fun k hk => hc.bytes i ((hdone i).mpr hi) k (List.mem_range.mp hk)
  · intro i hi
    exact hc.inHeap i ((hdone i).mpr hi)
  · intro i hi j hj hij
    have hapart := (hperm.pairwise_iff fun {a b} hab => hab.symm).mp hc.apart
    rcases Nat.lt_or_gt_of_ne hij with hlt | hlt
    · exact pairwise_range hapart hlt hj
    · exact (pairwise_range hapart hlt hi).symm
  · rw [← hc.filled, (hperm.map _).sum_nat]
  · -- the record that moved last is the lowest
    cases hlast : done with
    | nil =>
        rw [hlast] at hperm
        have hzero : n = 0 := by simpa using hperm.length_eq.symm
        refine .inl ⟨hzero, ?_⟩
        have hfilled := hc.filled
        rw [hlast] at hfilled
        exact hfilled
    | cons i others =>
        have hi : i ∈ done := by
          rw [hlast]
          exact List.mem_cons_self
        exact .inr ⟨i, (hdone i).mp hi, hc.lowest i (by rw [hlast]; rfl)⟩

/-- A leaf with two records, the lower one in the first slot, and dead bytes around them. -/
def gappedLeaf : BtreePage where
  pid := 1
  rlink := undefinedPage
  maxVal := undefinedOffset
  level := 0
  heapOffset := 8000
  slots := [8010, 8100]
  heap := Mem.write (Mem.write (fun _ => byte 255) 8010 (leaf.header 0 3)) 8100 (leaf.header 0 2)

theorem compactHeap_packs_gapped :
    ∃ pg, leaf.compactHeap { gappedLeaf with heapOffset := db7PageSize } 2 = .ok pg ∧
    PackedRecords leaf gappedLeaf pg 2 :=
  compactHeap_packs ⟨by decide, by decide, by decide, by decide, by decide⟩

end Layout

end Db7
