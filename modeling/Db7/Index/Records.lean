import Db7.Index.VarlenLayout
import Db7.Lib.Fallible

/-!
# Records in the heap

What a page's slots and fence denote (`entries`, `high`), and the invariant of
its heap (`PageInv`): the records lie between `heap_offset` and the end of the
page and the slots' records do not overlap, and all of them together with the
fence fit there. Records that no slot names any more are not counted: `Delete`
leaves them behind.

`AppendHeap` puts a record below `heap_offset` and touches nothing above it
(`Appended`); `InsertSlot` keeps the keys sorted; `CompactHeap` moves records up
past each other without losing one (`compactHeap_ok`).
-/

namespace Db7

open Lib Function

theorem assertThat_ok {c : Bool} {m : String} {x : Unit} :
    assertThat c m = .ok x ↔ c = true := by
  cases c <;> simp [assertThat]

namespace Layout

variable (lay : Layout)

/-- The bytes that a record with a key of length `len` takes, with padding. -/
def foot (len : Nat) : Nat := (lay.hdrSize + len + lay.align - 1) / lay.align * lay.align

theorem le_foot (len : Nat) : lay.hdrSize + len ≤ lay.foot len := by
  cases lay <;> simp only [foot, hdrSize, align] <;> omega

theorem foot_lt (len : Nat) : lay.foot len < lay.hdrSize + len + lay.align := by
  cases lay <;> simp only [foot, hdrSize, align] <;> omega

theorem foot_pos (len : Nat) : 0 < lay.foot len := by
  cases lay <;> simp only [foot, hdrSize, align] <;> omega

theorem foot_mod (len : Nat) : lay.foot len % lay.align = 0 := by
  cases lay <;> simp only [foot, hdrSize, align] <;> omega

variable {lay} in
/-- Below an aligned heap there is room for the padding, too. -/
theorem foot_le_of_aligned {n len : Nat} (ha : n % lay.align = 0) (hle : lay.hdrSize + len ≤ n) :
    lay.foot len ≤ n := by
  cases lay <;> simp only [foot, hdrSize, align] at * <;> omega

/-- Without a wrap the new offset is the old one less the record's bytes. -/
theorem calculateHeapOffset_add {prev len : Nat} (ha : prev % lay.align = 0)
    (hp : prev ≤ db7PageSize) (hf : lay.foot len ≤ prev) :
    lay.calculateHeapOffset prev len + lay.foot len = prev := by
  have : db7PageSize = 8192 := rfl
  cases lay <;> simp only [calculateHeapOffset, u16, foot, hdrSize, align] at * <;> omega

/-- A wrapped offset leaves the page. -/
theorem calculateHeapOffset_wrap {prev len : Nat} (ha : prev % lay.align = 0)
    (hp : prev ≤ db7PageSize) (hlen : len < 2 ^ 16) (hf : prev < lay.foot len) :
    db7PageSize < lay.calculateHeapOffset prev len + lay.hdrSize + len := by
  have : db7PageSize = 8192 := rfl
  cases lay <;> simp only [calculateHeapOffset, u16, foot, hdrSize, align] at * <;> omega

/-- What a leaf record keeps of a child: nothing. -/
def childOf (child : Nat) : Nat :=
  match lay with
  | leaf => 0
  | inter => child

/-- The record at `off`. -/
def entry (pg : BtreePage) (off : Nat) : Key × Nat := (lay.slotKey pg off, lay.slotChild pg off)

/-- The bytes of the record at `off`. -/
def recFoot (pg : BtreePage) (off : Nat) : Nat := lay.foot (lay.slotLen pg off)

variable {lay} {pg pg' : BtreePage}

theorem length_slotKey (off : Nat) : (lay.slotKey pg off).length = lay.slotLen pg off :=
  Mem.length_read

theorem slotLen_lt (off : Nat) : lay.slotLen pg off < 2 ^ 16 := by
  have hlt := ofLE_lt (pg.heap.read (off + lay.lenAt) 2)
  rwa [Mem.length_read] at hlt

theorem slotChild_lt (off : Nat) : lay.slotChild pg off < 2 ^ 32 := by
  cases lay with
  | leaf => simp [slotChild]
  | inter =>
      show ofLE (pg.heap.read off 4) < 2 ^ 32
      simp only [Mem.read, List.range, List.range.loop, List.map_cons, List.map_nil, ofLE]
      have h0 := (pg.heap (off + 0)).isLt
      have h1 := (pg.heap (off + 1)).isLt
      have h2 := (pg.heap (off + 2)).isLt
      have h3 := (pg.heap (off + 3)).isLt
      omega

/-- A record that is copied byte for byte is the same record. -/
theorem record_copy {off off' : Nat}
    (h : ∀ i, i < lay.hdrSize + lay.slotLen pg off → pg'.heap (off' + i) = pg.heap (off + i)) :
    lay.slotLen pg' off' = lay.slotLen pg off ∧ lay.entry pg' off' = lay.entry pg off := by
  have hread : ∀ k n, k + n ≤ lay.hdrSize + lay.slotLen pg off →
      pg'.heap.read (off' + k) n = pg.heap.read (off + k) n := by
    intro k n hk
    refine List.map_congr_left fun i hi => ?_
    have := List.mem_range.mp hi
    rw [Nat.add_assoc, Nat.add_assoc]
    exact h (k + i) (by omega)
  have hlen : lay.slotLen pg' off' = lay.slotLen pg off := by
    unfold slotLen
    rw [hread _ _ (by cases lay <;> simp only [lenAt, hdrSize] <;> omega)]
  refine ⟨hlen, ?_⟩
  have hkey : lay.slotKey pg' off' = lay.slotKey pg off := by
    unfold slotKey
    rw [hlen, hread _ _ le_rfl]
  have hchild : lay.slotChild pg' off' = lay.slotChild pg off := by
    cases lay with
    | leaf => rfl
    | inter =>
        have := hread 0 4 (by simp only [hdrSize]; omega)
        simp only [Nat.add_zero] at this
        simp only [slotChild, this]
  rw [entry, entry, hkey, hchild]

/-- A record whose bytes did not change is the same record. -/
theorem record_congr {off : Nat}
    (h : ∀ a, off ≤ a → a < off + lay.recFoot pg off → pg'.heap a = pg.heap a) :
    lay.slotLen pg' off = lay.slotLen pg off ∧ lay.entry pg' off = lay.entry pg off :=
  record_copy fun i hi => h (off + i) (by omega) (by
    have := lay.le_foot (lay.slotLen pg off)
    unfold recFoot
    omega)

variable (lay) in
/-- The tuples of a page, in slot order. -/
def entries (pg : BtreePage) : List (Key × Nat) := pg.slots.map (lay.entry pg)

variable (lay) in
/-- The high fence. -/
def high (pg : BtreePage) : Option Key :=
  if pg.maxVal = undefinedOffset then none else some (lay.slotKey pg pg.maxVal)

variable (lay) in
/-- The bytes of the high fence. -/
def fenceFoot (pg : BtreePage) : Nat :=
  if pg.maxVal = undefinedOffset then 0 else lay.recFoot pg pg.maxVal

variable (lay) in
/-- The bytes of the tuples. -/
def liveFoot (pg : BtreePage) : Nat := (pg.slots.map (lay.recFoot pg)).sum

variable (lay) in
/-- The heap of a page. -/
structure PageInv (pg : BtreePage) : Prop where
  aligned : pg.heapOffset % lay.align = 0
  room : headerSize + 2 * pg.count ≤ pg.heapOffset
  inHeap : ∀ o ∈ pg.slots, pg.heapOffset ≤ o ∧ o + lay.recFoot pg o ≤ db7PageSize
  apart : pg.slots.Pairwise fun a b =>
    a + lay.recFoot pg a ≤ b ∨ b + lay.recFoot pg b ≤ a
  fence : pg.maxVal ≠ undefinedOffset →
    pg.heapOffset ≤ pg.maxVal ∧ pg.maxVal + lay.recFoot pg pg.maxVal ≤ db7PageSize
  total : pg.heapOffset + lay.liveFoot pg + lay.fenceFoot pg ≤ db7PageSize

theorem PageInv.le_pageSize (h : PageInv lay pg) : pg.heapOffset ≤ db7PageSize := by
  have := h.total
  omega

theorem length_entries : (lay.entries pg).length = pg.count := by simp [entries, BtreePage.count]

theorem pageInv_initHeader (level pid : Nat) : PageInv lay (BtreePage.initHeader level pid) where
  aligned := by
    show db7PageSize % lay.align = 0
    cases lay <;> decide
  room := by
    show headerSize + 2 * 0 ≤ db7PageSize
    decide
  inHeap := by simp [BtreePage.initHeader]
  apart := .nil
  fence h := absurd rfl h
  total := by simp [BtreePage.initHeader, liveFoot, fenceFoot]

/-! ## `AppendHeap` -/

variable (lay) in
/-- `pg'` is `pg` with a new record for `key` and `child` at `off`. -/
structure Appended (pg pg' : BtreePage) (off : Nat) (key : Key) (child : Nat) : Prop where
  fits : headerSize + 2 * pg.count + lay.foot key.length ≤ pg.heapOffset
  off_add : off + lay.foot key.length = pg.heapOffset
  page : pg' = { pg with heap := pg'.heap, heapOffset := off }
  heap : ∀ a, pg.heapOffset ≤ a → pg'.heap a = pg.heap a
  len : lay.slotLen pg' off = key.length
  entry : lay.entry pg' off = (key, lay.childOf child)

theorem header_length (lay : Layout) (child len : Nat) :
    (lay.header child len).length = lay.lenAt + 2 ∧ lay.lenAt + 2 ≤ lay.hdrSize := by
  cases lay <;> simp [header, lenAt, hdrSize]

theorem appendHeap_iff (haligned : pg.heapOffset % lay.align = 0)
    (hle : pg.heapOffset ≤ db7PageSize) {key : Key} (hk : key.length < 2 ^ 16) {child : Nat}
    (hc : child < 2 ^ 32) :
    (∀ pg' off, lay.appendHeap pg key child = .ok (pg', off) → Appended lay pg pg' off key child) ∧
    (headerSize + 2 * pg.count + lay.foot key.length ≤ pg.heapOffset →
      ∃ pg' off, lay.appendHeap pg key child = .ok (pg', off)) := by
  constructor
  · intro pg' off hok
    simp only [appendHeap] at hok
    split at hok <;> rename_i hcond
    · obtain ⟨rfl, rfl⟩ := Prod.mk.inj (Except.ok.inj hok)
      obtain ⟨hend, hroom⟩ := hcond
      have hnowrap : lay.foot key.length ≤ pg.heapOffset := by
        by_contra hlt
        have := calculateHeapOffset_wrap lay haligned hle hk (not_le.mp hlt)
        omega
      have hadd := calculateHeapOffset_add lay haligned hle hnowrap
      generalize lay.calculateHeapOffset pg.heapOffset key.length = off at *
      obtain ⟨hhdr, hhdrle⟩ := header_length lay child key.length
      have hfoot := lay.le_foot key.length
      -- the header is read back through the write of the key behind it
      have hhead : ∀ k n, k + n ≤ lay.lenAt + 2 →
          ((pg.heap.write off (lay.header child key.length)).write (off + lay.hdrSize) key).read
            (off + k) n =
          (pg.heap.write off (lay.header child key.length)).read (off + k) n := fun k n hkn =>
        Mem.read_write_of_disjoint (.inr (by omega))
      have hlen : ofLE (((pg.heap.write off (lay.header child key.length)).write
          (off + lay.hdrSize) key).read (off + lay.lenAt) 2) = key.length := by
        rw [hhead _ _ le_rfl]
        have hle : ofLE (toLE 2 key.length) = key.length := by
          rw [ofLE_toLE]
          exact Nat.mod_eq_of_lt (by simpa using hk)
        cases lay with
        | leaf =>
            have := @Mem.read_write pg.heap off (toLE 2 key.length)
            rw [length_toLE] at this
            simpa [lenAt, header, this] using hle
        | inter =>
            have := @Mem.read_write_append_right pg.heap off (toLE 4 child) (toLE 2 key.length)
            rw [length_toLE, length_toLE] at this
            simpa [lenAt, header, this] using hle
      refine ⟨by omega, hadd, rfl, fun a ha => ?_, hlen, ?_⟩
      · show ((pg.heap.write off _).write (off + lay.hdrSize) key) a = pg.heap a
        rw [Mem.write_of_ge (by omega), Mem.write_of_ge (by omega)]
      · refine Prod.ext ?_ ?_
        · show Mem.read _ (off + lay.hdrSize) (ofLE _) = key
          rw [hlen]
          exact Mem.read_write
        · cases lay with
          | leaf => rfl
          | inter =>
              show ofLE (Mem.read _ off 4) = child
              have h4 := hhead 0 4 (by simp [lenAt])
              have := @Mem.read_write_append pg.heap off (toLE 4 child) (toLE 2 key.length)
              rw [length_toLE] at this
              simp only [Nat.add_zero] at h4
              rw [h4]
              simp only [header, this, ofLE_toLE]
              exact Nat.mod_eq_of_lt (by simpa using hc)
    · exact absurd hok (by simp)
  · intro hfits
    have hadd := calculateHeapOffset_add lay haligned hle
      (show lay.foot key.length ≤ pg.heapOffset by omega)
    have hfoot := lay.le_foot key.length
    exact ⟨_, _, if_pos ⟨by omega, by omega⟩⟩

namespace Appended

variable {off : Nat} {key : Key} {child : Nat}

/-- A record that was in the heap is what it was. -/
theorem record (ha : Appended lay pg pg' off key child) {o : Nat} (ho : pg.heapOffset ≤ o) :
    lay.recFoot pg' o = lay.recFoot pg o ∧ lay.entry pg' o = lay.entry pg o := by
  obtain ⟨hlen, hentry⟩ := @record_congr lay pg pg' o
    fun a hoa _ => ha.heap a (ho.trans hoa)
  exact ⟨by rw [recFoot, recFoot, hlen], hentry⟩

theorem recFoot_eq (ha : Appended lay pg pg' off key child) :
    lay.recFoot pg' off = lay.foot key.length := by
  rw [recFoot, ha.len]

theorem slots (ha : Appended lay pg pg' off key child) : pg'.slots = pg.slots := by rw [ha.page]

theorem maxVal (ha : Appended lay pg pg' off key child) : pg'.maxVal = pg.maxVal := by rw [ha.page]

theorem level (ha : Appended lay pg pg' off key child) : pg'.level = pg.level := by rw [ha.page]

theorem rlink (ha : Appended lay pg pg' off key child) : pg'.rlink = pg.rlink := by rw [ha.page]

theorem pid (ha : Appended lay pg pg' off key child) : pg'.pid = pg.pid := by rw [ha.page]

theorem heapOffset (ha : Appended lay pg pg' off key child) :
    pg'.heapOffset = off := by rw [ha.page]

/-- The slots' records are what they were. -/
theorem map_slots (h : PageInv lay pg) (ha : Appended lay pg pg' off key child) :
    pg.slots.map (lay.recFoot pg') = pg.slots.map (lay.recFoot pg) ∧
      pg.slots.map (lay.entry pg') = pg.slots.map (lay.entry pg) :=
  ⟨List.map_congr_left fun o ho => (ha.record (h.inHeap o ho).1).1,
    List.map_congr_left fun o ho => (ha.record (h.inHeap o ho).1).2⟩

theorem high (h : PageInv lay pg) (ha : Appended lay pg pg' off key child) :
    lay.high pg' = lay.high pg ∧ lay.fenceFoot pg' = lay.fenceFoot pg := by
  by_cases hmax : pg.maxVal = undefinedOffset
  · simp [Layout.high, fenceFoot, ha.maxVal, hmax]
  · obtain ⟨hfoot, hentry⟩ := ha.record (h.fence hmax).1
    have hkey : lay.slotKey pg' pg.maxVal = lay.slotKey pg pg.maxVal := congrArg Prod.fst hentry
    simp [Layout.high, fenceFoot, ha.maxVal, hmax, hfoot, hkey]

/-- The page with the record in a slot, or as its fence, or in none. -/
theorem pageInv (h : PageInv lay pg) (ha : Appended lay pg pg' off key child)
    {pg'' : BtreePage} (hheap : pg''.heap = pg'.heap) (hoff : pg''.heapOffset = off)
    (hslots : pg''.slots = pg.slots ∧ headerSize + 2 * pg.count ≤ off ∨
      pg''.slots.Perm (off :: pg.slots) ∧ headerSize + 2 * (pg.count + 1) ≤ off)
    (hmax : pg''.maxVal = pg.maxVal) : PageInv lay pg'' := by
  have hfoot : ∀ o, lay.recFoot pg'' o = lay.recFoot pg' o := by
    intro o
    simp only [recFoot, slotLen, hheap]
  have hold : ∀ o ∈ pg.slots, lay.recFoot pg'' o = lay.recFoot pg o := fun o ho => by
    rw [hfoot, (ha.record (h.inHeap o ho).1).1]
  have hnew : lay.recFoot pg'' off = lay.foot key.length := by rw [hfoot, ha.recFoot_eq]
  have hadd := ha.off_add
  have hle := h.le_pageSize
  have hin : ∀ o ∈ pg.slots, off + lay.recFoot pg'' off ≤ o ∧ off ≤ o ∧
      o + lay.recFoot pg'' o ≤ db7PageSize := by
    intro o ho
    have := h.inHeap o ho
    rw [hnew, hold o ho]
    omega
  have hapart : pg.slots.Pairwise fun a b =>
      a + lay.recFoot pg'' a ≤ b ∨ b + lay.recFoot pg'' b ≤ a := by
    refine h.apart.imp_of_mem fun {a b} ha' hb' hab => ?_
    rw [hold a ha', hold b hb']
    exact hab
  have hlive : (pg.slots.map (lay.recFoot pg'')).sum = lay.liveFoot pg := by
    rw [liveFoot, List.map_congr_left hold]
  have hfence : lay.fenceFoot pg'' = lay.fenceFoot pg := by
    rw [← (ha.high h).2]
    simp only [fenceFoot, hmax, ha.maxVal, hfoot]
  have htotal := h.total
  refine ⟨?_, ?_, fun o ho => ?_, ?_, fun hm => ?_, ?_⟩
  · have hmod := h.aligned
    have hfmod := lay.foot_mod key.length
    rw [hoff]
    rw [← hadd] at hmod
    cases lay <;> simp only [align] at hmod hfmod ⊢ <;> omega
  · rw [hoff]
    rcases hslots with ⟨hs, hr⟩ | ⟨hs, hr⟩
    · simpa [BtreePage.count, hs] using hr
    · simpa [BtreePage.count, hs.length_eq] using hr
  · rw [hoff]
    rcases hslots with ⟨hs, -⟩ | ⟨hs, -⟩
    · exact (hin o (hs ▸ ho)).2
    · rcases List.mem_cons.mp (hs.mem_iff.mp ho) with rfl | ho
      · rw [hnew]; omega
      · exact (hin o ho).2
  · rcases hslots with ⟨hs, -⟩ | ⟨hs, -⟩
    · rw [hs]; exact hapart
    · refine (hs.pairwise_iff fun {a b} hab => hab.symm).mpr (List.pairwise_cons.mpr ⟨?_, hapart⟩)
      intro o ho
      exact .inl (hin o ho).1
  · rw [hmax] at hm ⊢
    have := h.fence hm
    rw [hoff, hfoot, (ha.record this.1).1]
    omega
  · rw [hoff, hfence]
    rcases hslots with ⟨hs, -⟩ | ⟨hs, -⟩
    · rw [liveFoot, hs, hlive]; omega
    · rw [liveFoot, (hs.map _).sum_nat, List.map_cons, List.sum_cons, hlive, hnew]; omega

end Appended

/-- A record of the page becomes its fence. -/
theorem PageInv.withFence (h : PageInv lay pg) {o : Nat} (ho : pg.heapOffset ≤ o)
    (hend : o + lay.recFoot pg o ≤ db7PageSize)
    (htotal : pg.heapOffset + lay.liveFoot pg + lay.recFoot pg o ≤ db7PageSize) :
    PageInv lay { pg with maxVal := o } ∧
      lay.high { pg with maxVal := o } = some (lay.slotKey pg o) ∧
      lay.fenceFoot { pg with maxVal := o } = lay.recFoot pg o := by
  have hne : o ≠ undefinedOffset := by
    have : db7PageSize = 8192 := rfl
    have : undefinedOffset = 65535 := rfl
    omega
  have hfence : lay.fenceFoot { pg with maxVal := o } = lay.recFoot pg o := if_neg hne
  exact ⟨⟨h.aligned, h.room, h.inHeap, h.apart, fun _ => ⟨ho, hend⟩, by rw [hfence]; exact htotal⟩,
    if_neg hne, hfence⟩

/-! ## `InsertSlot` -/

variable (lay) in
/-- The keys of a page increase. -/
def Sorted (pg : BtreePage) : Prop := (lay.entries pg).Pairwise fun a b => a.1 < b.1

theorem getElem_entries {i : Nat} (hi : i < (lay.entries pg).length) :
    (lay.entries pg)[i] = lay.entry pg (pg.slot i) := by
  have hi' : i < pg.slots.length := by rwa [length_entries] at hi
  simp [entries, BtreePage.slot, List.getD_eq_getElem?_getD, List.getElem?_eq_getElem hi']

theorem key_lt_key (hs : Sorted lay pg) {i j : Nat} (hij : i < j) (hj : j < pg.count) :
    lay.slotKey pg (pg.slot i) < lay.slotKey pg (pg.slot j) := by
  have hi : i < pg.count := by omega
  have := List.pairwise_iff_getElem.mp hs i j (by rwa [length_entries])
    (by rwa [length_entries]) hij
  rwa [getElem_entries, getElem_entries] at this

theorem key_le_key (hs : Sorted lay pg) {i j : Nat} (hij : i ≤ j) (hj : j < pg.count) :
    lay.slotKey pg (pg.slot i) ≤ lay.slotKey pg (pg.slot j) := by
  rcases Nat.lt_or_eq_of_le hij with hlt | rfl
  · exact (key_lt_key hs hlt hj).le
  · exact le_rfl

/-- Where the search for the first key that is not smaller ends. -/
theorem parts_insert (hs : Sorted lay pg) (main : Key) :
    ∀ i j, i ≤ j → j < pg.count → cmpFull (lay.slotKey pg (pg.slot j)) main < 0 →
      cmpFull (lay.slotKey pg (pg.slot i)) main < 0 := by
  intro i j hij hj hlt
  exact cmpFull_neg.mpr ((key_le_key hs hij hj).trans_lt (cmpFull_neg.mp hlt))

/-- A parting point for "smaller than `main`" parts the tuples. -/
theorem take_drop_of_parts {main : Key} {r : Nat}
    (h : Parts (fun i => decide (cmpFull (lay.slotKey pg (pg.slot i)) main < 0)) pg.count r) :
    (∀ a ∈ (lay.entries pg).take r, a.1 < main) ∧ ∀ b ∈ (lay.entries pg).drop r, main ≤ b.1 := by
  rw [← @length_entries lay] at h
  have hsplit := h.take_drop (q := fun e => decide (cmpFull e.1 main < 0)) fun i hi => by
    rw [getElem_entries hi]
    rfl
  refine ⟨fun a ha => cmpFull_neg.mp (by simpa using hsplit.1 a ha), fun b hb => ?_⟩
  have := hsplit.2 b hb
  rw [← not_lt, ← cmpFull_neg]
  simpa using this

theorem findInsertPosition_ok (hs : Sorted lay pg) {main : Key} {r : Nat}
    (hok : lay.findInsertPosition pg main = .ok r) :
    r ≤ pg.count ∧ (∀ a ∈ (lay.entries pg).take r, a.1 < main) ∧
      (∀ b ∈ (lay.entries pg).drop r, main ≤ b.1) ∧
      (lay = inter → ∀ e ∈ lay.entries pg, e.1 ≠ main) := by
  have hmono := parts_insert hs main
  cases lay with
  | leaf =>
      obtain rfl := Except.ok.inj hok
      have hparts := partitionPoint_parts
        (p := fun i => decide (cmpFull (leaf.slotKey pg (pg.slot i)) main < 0)) (n := pg.count)
        (by simpa using hmono)
      exact ⟨hparts.le, (take_drop_of_parts hparts).1, (take_drop_of_parts hparts).2, by simp⟩
  | inter =>
      simp only [findInsertPosition] at hok
      split at hok <;> rename_i hsearch
      · obtain rfl := Except.ok.inj hok
        obtain ⟨hparts, hne⟩ := partitionPointNe_some hmono hsearch
        refine ⟨hparts.le, (take_drop_of_parts hparts).1, (take_drop_of_parts hparts).2, ?_⟩
        rintro - e he rfl
        -- an equal key would stand at the parting point itself
        obtain ⟨i, hi, rfl⟩ := List.mem_iff_getElem.mp he
        rw [length_entries] at hi
        rw [getElem_entries] at hparts hne
        change Parts (fun j => decide (cmpFull _ (inter.slotKey pg (pg.slot i)) < 0)) _ _ at hparts
        change _ ∨ cmpFull _ (inter.slotKey pg (pg.slot i)) ≠ 0 at hne
        have hzero : cmpFull (inter.slotKey pg (pg.slot i)) (inter.slotKey pg (pg.slot i)) = 0 :=
          cmpFull_zero.mpr rfl
        have hle := hparts.le
        rcases Nat.lt_trichotomy i _ with hlt | heq | hgt
        · have := hparts.before i hlt
          simp [hzero] at this
        · subst heq
          exact absurd hzero (hne.resolve_left (by omega))
        · have hlt := key_lt_key hs hgt hi
          have := hparts.after _ le_rfl (by omega)
          simp [cmpFull_neg.mpr hlt] at this
      · exact absurd hok (by simp)

theorem findInsertPosition_isOk (hs : Sorted lay pg) (main : Key)
    (hne : lay = inter → ∀ e ∈ lay.entries pg, e.1 ≠ main) :
    ∃ r, lay.findInsertPosition pg main = .ok r := by
  cases lay with
  | leaf => exact ⟨_, rfl⟩
  | inter =>
      simp only [findInsertPosition]
      split <;> rename_i hsearch
      · exact ⟨_, rfl⟩
      · refine absurd hsearch (partitionPointNe_ne_none (parts_insert hs main) fun i hi hz => ?_)
        have hi' : i < (inter.entries pg).length := by rwa [length_entries]
        refine hne rfl (inter.entries pg)[i] (List.getElem_mem hi') ?_
        rw [← cmpFull_zero.mp hz, getElem_entries]
        rfl

variable (lay) in
/-- `pg'` is `pg` with a tuple for `key` and `child` in its place. -/
structure Inserted (pg pg' : BtreePage) (key : Key) (child : Nat) : Prop where
  pageInv : PageInv lay pg'
  entries : ∃ as bs, lay.entries pg = as ++ bs ∧
    lay.entries pg' = as ++ (key, lay.childOf child) :: bs ∧
    (∀ a ∈ as, a.1 < key) ∧ ∀ b ∈ bs, key ≤ b.1
  fresh : lay = inter → ∀ e ∈ lay.entries pg, e.1 ≠ key
  high : lay.high pg' = lay.high pg
  level : pg'.level = pg.level
  rlink : pg'.rlink = pg.rlink
  offset : pg'.heapOffset + lay.foot key.length = pg.heapOffset
  live : lay.liveFoot pg' = lay.liveFoot pg + lay.foot key.length
  fence : lay.fenceFoot pg' = lay.fenceFoot pg

theorem findInsertPosition_le {main : Key} {r : Nat}
    (hok : lay.findInsertPosition pg main = .ok r) :
    r ≤ pg.count := by
  cases lay with
  | leaf =>
      obtain rfl := Except.ok.inj hok
      exact partitionPoint_le _ _ _ _ (Nat.zero_le _)
  | inter =>
      simp only [findInsertPosition] at hok
      split at hok <;> rename_i hsearch
      · obtain rfl := Except.ok.inj hok
        exact partitionPointNe_le _ _ _ _ _ (Nat.zero_le _) hsearch
      · exact absurd hok (by simp)

/-- What `AppendHeap` and `InsertSlot` do to the heap and the slots. -/
theorem insertTuple_appended (h : PageInv lay pg) {key : Key} {child : Nat}
    (hk : key.length < 2 ^ 16) (hc : child < 2 ^ 32)
    (hok : lay.insertTuple pg key child = .ok pg') :
    ∃ pg₁ off idx, Appended lay pg pg₁ off key child ∧ lay.findInsertPosition pg₁ key = .ok idx ∧
      (pg.slots.insertIdx idx off).Perm (off :: pg.slots) ∧ headerSize + 2 * (pg.count + 1) ≤ off ∧
      pg' = { pg₁ with slots := pg.slots.insertIdx idx off } := by
  obtain ⟨⟨pg₁, off⟩, happ, hins⟩ := bind_ok.mp hok
  have ha := (appendHeap_iff h.aligned h.le_pageSize hk hc).1 pg₁ off happ
  obtain ⟨idx, hidx, hins⟩ := bind_ok.mp hins
  have hmain : lay.slotKey pg₁ off = key := congrArg Prod.fst ha.entry
  rw [hmain] at hidx
  have hle := findInsertPosition_le hidx
  rw [BtreePage.count, ha.slots] at hle
  split at hins <;> rename_i hroom
  · obtain rfl := Except.ok.inj hins
    rw [BtreePage.count, ha.slots, ha.heapOffset] at hroom
    exact ⟨pg₁, off, idx, ha, hidx, List.perm_insertIdx off pg.slots hle, hroom, by rw [ha.slots]⟩
  · exact absurd hins (by simp)

theorem insertTuple_ok (h : PageInv lay pg) (hs : Sorted lay pg) {key : Key} {child : Nat}
    (hk : key.length < 2 ^ 16) (hc : child < 2 ^ 32)
    (hok : lay.insertTuple pg key child = .ok pg') :
    Inserted lay pg pg' key child := by
  obtain ⟨pg₁, off, idx, ha, hidx, hperm, hroom, rfl⟩ := insertTuple_appended h hk hc hok
  obtain ⟨hfootmap, hentrymap⟩ := ha.map_slots h
  have hentries₁ :
      lay.entries pg₁ = lay.entries pg := by rw [Layout.entries, ha.slots, hentrymap]; rfl
  have hs₁ : Sorted lay pg₁ := by rw [Sorted, hentries₁]; exact hs
  obtain ⟨hle, hbefore, hafter, hfresh⟩ := findInsertPosition_ok hs₁ hidx
  rw [hentries₁] at hbefore hafter hfresh
  rw [BtreePage.count, ha.slots] at hle
  refine ⟨ha.pageInv h rfl ha.heapOffset (.inr ⟨hperm, hroom⟩) ha.maxVal,
    ⟨(lay.entries pg).take idx, (lay.entries pg).drop idx, (List.take_append_drop ..).symm, ?_,
      hbefore, hafter⟩, hfresh, ?_, ha.level, ha.rlink, ?_, ?_, ?_⟩
  · show (pg.slots.insertIdx idx off).map (lay.entry pg₁) = _
    rw [insertIdx_eq_take_drop _ _ _ hle, List.map_append, List.map_cons, List.map_take,
      List.map_drop, hentrymap, ha.entry]
    rfl
  · exact (ha.high h).1
  · show pg₁.heapOffset + _ = _
    rw [ha.heapOffset, ha.off_add]
  · show ((pg.slots.insertIdx idx off).map (lay.recFoot pg₁)).sum = _
    rw [(hperm.map _).sum_nat, List.map_cons, List.sum_cons, hfootmap, ha.recFoot_eq, liveFoot,
      Nat.add_comm]
  · exact (ha.high h).2

/-- `AppendHeap` and `InsertSlot` succeed when `HasSpace` holds without a wrap
and an inner page does not have the key. -/
theorem insertTuple_isOk (h : PageInv lay pg) (hs : Sorted lay pg) {key : Key} {child : Nat}
    (hk : key.length < 2 ^ 16) (hc : child < 2 ^ 32)
    (hroom : headerSize + 2 * (pg.count + 1) + lay.foot key.length ≤ pg.heapOffset)
    (hne : lay = inter → ∀ e ∈ lay.entries pg, e.1 ≠ key) :
    ∃ pg', lay.insertTuple pg key child = .ok pg' := by
  obtain ⟨pg₁, off, happ⟩ := (appendHeap_iff h.aligned h.le_pageSize hk hc).2 (by omega)
  have ha := (appendHeap_iff h.aligned h.le_pageSize hk hc).1 pg₁ off happ
  have hentries₁ : lay.entries pg₁ = lay.entries pg := by
    rw [Layout.entries, ha.slots, (ha.map_slots h).2]; rfl
  have hs₁ : Sorted lay pg₁ := by rw [Sorted, hentries₁]; exact hs
  have hmain : lay.slotKey pg₁ off = key := congrArg Prod.fst ha.entry
  obtain ⟨idx, hidx⟩ := findInsertPosition_isOk hs₁ key (by rwa [hentries₁])
  refine ⟨_, bind_ok.mpr ⟨_, happ, bind_ok.mpr ⟨idx, by rw [hmain]; exact hidx, if_pos ?_⟩⟩⟩
  have hadd := ha.off_add
  rw [BtreePage.count, ha.slots, ha.heapOffset]
  show headerSize + 2 * (pg.count + 1) ≤ off
  omega

end Layout

end Db7
