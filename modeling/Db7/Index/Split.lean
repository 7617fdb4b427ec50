import Db7.Index.Compaction
import Mathlib.Algebra.Order.BigOperators.Group.List

/-!
# Splits

`Split` of a page with two tuples or more: both halves get a tuple, the left
one ends with the sentinel (the first tuple of the right one) as its fence, and
neither keeps dead records (`halves_ok`). The pending key goes to the half that
the sentinel tells (`split_ok`).
-/

namespace Db7

open Lib Function

namespace Layout

variable {lay : Layout} {left right pg : BtreePage}

/-! ## `FindSplitPoint` -/

theorem splitLoop_bounds {count target : Nat} (hc : 2 ≤ count) :
    ∀ (lens : List Nat) (i acc : Nat), 1 ≤ splitLoop count target lens i acc ∧
      splitLoop count target lens i acc < count
  | [], i, acc => by simp only [splitLoop]; omega
  | len :: lens, i, acc => by
      rw [splitLoop]
      split
      · omega
      · exact splitLoop_bounds hc lens (i + 1) (acc + len)

theorem findSplitPoint_ok {n : Nat} (h : lay.findSplitPoint left = .ok n) :
    2 ≤ left.count ∧ 1 ≤ n ∧ n < left.count := by
  obtain ⟨_, hassert, hok⟩ := bind_ok.mp h
  have hc : 2 ≤ left.count := by simpa using assertThat_ok.mp hassert
  obtain rfl := Except.ok.inj hok
  exact ⟨hc, splitLoop_bounds hc _ _ _⟩

theorem findSplitPoint_isOk (lay : Layout) (hc : 2 ≤ left.count) :
    ∃ n, lay.findSplitPoint left = .ok n :=
  ⟨_, bind_ok.mpr ⟨(), assertThat_ok.mpr (by simpa using hc), rfl⟩⟩

/-! ## `CopyHalfRight` -/

/-- `pg` is `right` with copies of the records at `offs` of `left` appended. -/
structure Copied (lay : Layout) (left right pg : BtreePage) (offs : List Nat) : Prop where
  pageInv : PageInv lay pg
  pid : pg.pid = right.pid
  maxVal : pg.maxVal = right.maxVal
  level : pg.level = right.level
  entries : lay.entries pg = lay.entries right ++ offs.map (lay.entry left)
  live : lay.liveFoot pg = lay.liveFoot right + (offs.map (lay.recFoot left)).sum
  offset : pg.heapOffset + (offs.map (lay.recFoot left)).sum = right.heapOffset
  record : ∀ o, right.heapOffset ≤ o →
    lay.recFoot pg o = lay.recFoot right o ∧ lay.entry pg o = lay.entry right o

theorem childOf_slotChild (off : Nat) :
    lay.childOf (lay.slotChild left off) = lay.slotChild left off := by
  cases lay <;> rfl

theorem copyOne_ok (left : BtreePage) (off : Nat) (h : PageInv lay right)
    (hroom : headerSize + 2 * (right.count + 1) + lay.recFoot left off ≤ right.heapOffset) :
    ∃ pg, lay.copyOne left right off = .ok pg ∧ Copied lay left right pg [off] ∧
      pg.count = right.count + 1 := by
  have hlen : (lay.slotKey left off).length = lay.slotLen left off := length_slotKey off
  have hklen : (lay.slotKey left off).length < 2 ^ 16 := by rw [hlen]; exact slotLen_lt off
  have hchild : lay.slotChild left off < 2 ^ 32 := slotChild_lt off
  have happ := appendHeap_iff h.aligned h.le_pageSize hklen hchild
  have hfoot : lay.foot (lay.slotKey left off).length = lay.recFoot left off := by rw [hlen]; rfl
  obtain ⟨pg', off', hok⟩ := happ.2 (by omega)
  have ha := happ.1 pg' off' hok
  have hadd := ha.off_add
  obtain ⟨hfoots, hentries⟩ := ha.map_slots h
  refine ⟨{ pg' with slots := pg'.slots ++ [off'] }, bind_ok.mpr ⟨_, hok, rfl⟩, ?_, ?_⟩
  · refine ⟨ha.pageInv h rfl ha.heapOffset (.inr ⟨?_, by omega⟩) ha.maxVal, ha.pid, ha.maxVal,
      ha.level, ?_, ?_, ?_, fun o ho => ha.record ho⟩
    · rw [ha.slots]
      exact List.perm_append_singleton off' right.slots
    · show (pg'.slots ++ [off']).map (lay.entry pg') = _
      rw [ha.slots, List.map_append, hentries, List.map_singleton, ha.entry, childOf_slotChild]
      rfl
    · show ((pg'.slots ++ [off']).map (lay.recFoot pg')).sum = _
      rw [ha.slots, List.map_append, hfoots, List.map_singleton, ha.recFoot_eq, hfoot,
        List.sum_append]
      rfl
    · show pg'.heapOffset + _ = _
      rw [ha.heapOffset, List.map_singleton, List.sum_singleton, ← hfoot, hadd]
  · show (pg'.slots ++ [off']).length = _
    rw [ha.slots, List.length_append]
    rfl

theorem copyAll_ok (left : BtreePage) : ∀ (offs : List Nat) {right : BtreePage}, PageInv lay right →
    headerSize + 2 * (right.count + offs.length) + (offs.map (lay.recFoot left)).sum ≤
      right.heapOffset →
    ∃ pg, offs.foldlM (lay.copyOne left) right = .ok pg ∧ Copied lay left right pg offs
  | [], right, h, _ =>
      ⟨right, rfl, h, rfl, rfl, rfl, by simp, by simp, by simp, fun _ _ => ⟨rfl, rfl⟩⟩
  | off :: offs, right, h, hroom => by
      rw [List.map_cons, List.sum_cons, List.length_cons] at hroom
      obtain ⟨pg₁, hok₁, hc₁, hcount⟩ := copyOne_ok left off h (by omega)
      have hoff₁ := hc₁.offset
      rw [List.map_singleton, List.sum_singleton] at hoff₁
      obtain ⟨pg, hok, hc⟩ := copyAll_ok left offs hc₁.pageInv (by omega)
      refine ⟨pg, by rw [List.foldlM_cons, hok₁]; exact hok, hc.pageInv, hc.pid.trans hc₁.pid,
        hc.maxVal.trans hc₁.maxVal, hc.level.trans hc₁.level, ?_, ?_, ?_, fun o ho => ?_⟩
      · rw [hc.entries, hc₁.entries, List.append_assoc]
        rfl
      · rw [hc.live, hc₁.live, List.map_singleton, List.sum_singleton, List.map_cons, List.sum_cons]
        omega
      · have := hc.offset
        rw [List.map_cons, List.sum_cons]
        omega
      · obtain ⟨hf, he⟩ := hc.record o (by omega)
        obtain ⟨hf₁, he₁⟩ := hc₁.record o ho
        exact ⟨hf.trans hf₁, he.trans he₁⟩

/-- The right half: a fresh page with the tuples from the split point on. -/
structure RightHalf (lay : Layout) (left pg : BtreePage) (level pid n : Nat) : Prop where
  pageInv : PageInv lay pg
  entries : lay.entries pg = (lay.entries left).drop n
  high : lay.high pg = lay.high left
  level : pg.level = level
  pid : pg.pid = pid
  live : lay.liveFoot pg = ((left.slots.drop n).map (lay.recFoot left)).sum
  fence : lay.fenceFoot pg = lay.fenceFoot left
  filled : pg.heapOffset + lay.liveFoot pg + lay.fenceFoot pg = db7PageSize

theorem liveFoot_take_drop (lay : Layout) (left : BtreePage) (n : Nat) : lay.liveFoot left =
    ((left.slots.take n).map (lay.recFoot left)).sum +
      ((left.slots.drop n).map (lay.recFoot left)).sum := by
  rw [liveFoot, ← List.sum_append, ← List.map_append, List.take_append_drop]

theorem copyHalfRight_ok (h : PageInv lay left) (level pid n : Nat) :
    ∃ pg rightMax, lay.copyHalfRight left (.initHeader level pid) n = .ok (pg, rightMax) ∧
      pg.maxVal = undefinedOffset ∧ ∀ rlink,
        RightHalf lay left { pg with rlink := rlink, maxVal := rightMax } level pid n := by
  have hroom := h.room
  have htotal := h.total
  have hsplit := liveFoot_take_drop lay left n
  have hinit := @pageInv_initHeader lay level pid
  have hcount : (left.slots.drop n).length ≤ left.count := by simp [BtreePage.count]
  have hnoslots : (BtreePage.initHeader level pid).count = 0 := rfl
  have hfull : (BtreePage.initHeader level pid).heapOffset = db7PageSize := rfl
  by_cases hmax : left.maxVal = undefinedOffset
  · have hnofence : lay.fenceFoot left = 0 := if_pos hmax
    obtain ⟨pg, hok, hc⟩ := copyAll_ok left (left.slots.drop n) hinit (by omega)
    have hundef : pg.maxVal = undefinedOffset := hc.maxVal
    refine ⟨pg, undefinedOffset, ?_, hundef, fun rlink => ?_⟩
    · simp only [copyHalfRight, hmax, ne_eq, not_true_eq_false, if_false]
      exact bind_ok.mpr ⟨_, rfl, bind_ok.mpr ⟨_, hok, rfl⟩⟩
    · have hp : PageInv lay { pg with rlink := rlink, maxVal := undefinedOffset } := by
        have := hc.pageInv
        exact ⟨this.aligned, this.room, this.inHeap, this.apart, fun hm => absurd rfl hm, by
          have htot := this.total
          show pg.heapOffset + lay.liveFoot pg + lay.fenceFoot
            { pg with maxVal := undefinedOffset } ≤ _
          simp only [fenceFoot, if_true]
          omega⟩
      have hoff := hc.offset
      refine ⟨hp, ?_, ?_, hc.level, hc.pid, ?_, ?_, ?_⟩
      · show lay.entries pg = _
        rw [hc.entries, Layout.entries, Layout.entries, List.map_drop]
        rfl
      · simp [Layout.high, hmax]
      · show lay.liveFoot pg = _
        rw [hc.live]
        simp [liveFoot, BtreePage.initHeader]
      · simp [fenceFoot, hmax]
      · show pg.heapOffset + lay.liveFoot pg + 0 = _
        rw [hc.live]
        simp only [liveFoot, BtreePage.initHeader, List.map_nil, List.sum_nil] at hoff ⊢
        omega
  · have hfence : lay.fenceFoot left = lay.recFoot left left.maxVal := if_neg hmax
    have hlen : (lay.slotKey left left.maxVal).length = lay.slotLen left left.maxVal :=
      length_slotKey _
    have hfoot : lay.foot (lay.slotKey left left.maxVal).length = lay.recFoot left left.maxVal := by
      rw [hlen]; rfl
    have hklen : (lay.slotKey left left.maxVal).length < 2 ^ 16 := by rw [hlen]; exact slotLen_lt _
    have hchild : lay.slotChild left left.maxVal < 2 ^ 32 := slotChild_lt _
    have happ := appendHeap_iff hinit.aligned hinit.le_pageSize hklen hchild
    obtain ⟨pg₁, rightMax, hok₁⟩ := happ.2 (by omega)
    have ha := happ.1 pg₁ rightMax hok₁
    have hadd := ha.off_add
    have h₁ : PageInv lay pg₁ := ha.pageInv hinit rfl ha.heapOffset
      (.inl ⟨ha.slots, by omega⟩) ha.maxVal
    have hcount₁ : pg₁.count = 0 := by rw [BtreePage.count, ha.slots]; rfl
    have hoff₁ := ha.heapOffset
    obtain ⟨pg, hok, hc⟩ := copyAll_ok left (left.slots.drop n) h₁ (by omega)
    have hundef : pg.maxVal = undefinedOffset := hc.maxVal.trans ha.maxVal
    refine ⟨pg, rightMax, ?_, hundef, fun rlink => ?_⟩
    · simp only [copyHalfRight, hmax, ne_eq, not_false_eq_true, if_true]
      exact bind_ok.mpr ⟨_, hok₁, bind_ok.mpr ⟨_, hok, rfl⟩⟩
    · obtain ⟨hf, he⟩ := hc.record rightMax hoff₁.le
      rw [ha.recFoot_eq, hfoot] at hf
      have hoff := hc.offset
      have hlive₁ : lay.liveFoot pg₁ = 0 := by rw [liveFoot, ha.slots]; rfl
      have hlive := hc.live
      obtain ⟨hp, hhigh, hff⟩ :=
        hc.pageInv.withFence (o := rightMax) (by omega) (by omega) (by omega)
      have hentry₁ : lay.entries pg₁ = [] := by rw [Layout.entries, ha.slots]; rfl
      refine ⟨⟨hp.aligned, hp.room, hp.inHeap, hp.apart, hp.fence, hp.total⟩, ?_, ?_,
        hc.level.trans ha.level, hc.pid.trans ha.pid, ?_, ?_, ?_⟩
      · show lay.entries pg = _
        rw [hc.entries, hentry₁, Layout.entries, List.map_drop]
        rfl
      · show lay.high { pg with maxVal := rightMax } = _
        rw [hhigh]
        have hkey : lay.slotKey pg rightMax = lay.slotKey left left.maxVal :=
          (congrArg Prod.fst he).trans (congrArg Prod.fst ha.entry)
        simp [Layout.high, hmax, hkey]
      · show lay.liveFoot pg = _
        rw [hlive, hlive₁, Nat.zero_add]
      · show lay.fenceFoot { pg with maxVal := rightMax } = _
        rw [hff, hf, hfence]
      · show pg.heapOffset + lay.liveFoot pg + lay.fenceFoot { pg with maxVal := rightMax } = _
        rw [hff]
        omega

/-! ## `Split` -/

/-- The left half: the tuples before the split point, with the sentinel `s` as
its fence. -/
structure LeftHalf (lay : Layout) (left pg : BtreePage) (newPid n : Nat) (s : Key) : Prop where
  pageInv : PageInv lay pg
  entries : lay.entries pg = (lay.entries left).take n
  high : lay.high pg = some s
  level : pg.level = left.level
  pid : pg.pid = left.pid
  rlink : pg.rlink = newPid
  live : lay.liveFoot pg = ((left.slots.take n).map (lay.recFoot left)).sum
  fence : lay.fenceFoot pg = lay.foot s.length
  filled : pg.heapOffset + lay.liveFoot pg + lay.fenceFoot pg = db7PageSize

/-- The left half from the packed page and the appended sentinel. -/
theorem leftHalf_ok {n newPid child off : Nat} {s : Key} (h : PageInv lay left)
    (hc : Compacted lay left pg n) {pg' : BtreePage} (ha : Appended lay pg pg' off s child) :
    LeftHalf lay left { pg' with rlink := newPid, slots := pg'.slots.take n, maxVal := off }
      newPid n s := by
  have hadd := ha.off_add
  have hfits := ha.fits
  have hfilled := hc.filled
  have hroom := h.room
  -- the packed page without the slots that moved right, and without a fence
  let base : BtreePage := { pg with slots := pg.slots.take n, maxVal := undefinedOffset }
  have hcount : base.count ≤ pg.count := by simp [base, BtreePage.count]
  have hlive : lay.liveFoot base = ((left.slots.take n).map (lay.recFoot left)).sum := by
    rw [← hc.foots]
    rfl
  have hbase : PageInv lay base := by
    refine ⟨hc.aligned, ?_, hc.inHeap, hc.apart, fun hm => absurd rfl hm, ?_⟩
    · show _ ≤ pg.heapOffset
      omega
    · rw [hlive]
      show pg.heapOffset + _ + 0 ≤ _
      omega
  let next : BtreePage := { pg' with slots := pg'.slots.take n, maxVal := undefinedOffset }
  have hnext : Appended lay base next off s child := by
    refine ⟨by show _ ≤ pg.heapOffset; omega, hadd, ?_, ha.heap, ha.len, ha.entry⟩
    show next = { base with heap := pg'.heap, heapOffset := off }
    have := ha.page
    simp only [next, base]
    rw [this]
  have hnextInv : PageInv lay next := hnext.pageInv hbase rfl ha.heapOffset
    (.inl ⟨by rw [hnext.slots], by omega⟩) rfl
  have hlive' : lay.liveFoot next = lay.liveFoot base := by
    rw [liveFoot, hnext.slots, (hnext.map_slots hbase).1]
    rfl
  have hoff := ha.heapOffset
  have hfoot : lay.recFoot next off = lay.foot s.length := hnext.recFoot_eq
  obtain ⟨hp, hhigh, hfence⟩ := hnextInv.withFence (o := off) (by show pg'.heapOffset ≤ off; omega)
    (by omega) (by show pg'.heapOffset + _ + _ ≤ _; omega)
  refine ⟨⟨hp.aligned, hp.room, hp.inHeap, hp.apart, hp.fence, hp.total⟩, ?_, ?_, ?_, ?_,
    rfl, ?_, ?_, ?_⟩
  · show lay.entries next = _
    rw [Layout.entries, hnext.slots, (hnext.map_slots hbase).2, Layout.entries, ← List.map_take,
      ← hc.entries]
    rfl
  · show lay.high { next with maxVal := off } = _
    rw [hhigh]
    exact congrArg some (congrArg Prod.fst hnext.entry)
  · show pg'.level = _
    rw [ha.level, hc.page]
  · show pg'.pid = _
    rw [ha.pid, hc.page]
  · show lay.liveFoot next = _
    rw [hlive', hlive]
  · show lay.fenceFoot { next with maxVal := off } = _
    rw [hfence, hfoot]
  · show pg'.heapOffset + lay.liveFoot next + lay.fenceFoot { next with maxVal := off } = _
    rw [hfence, hfoot, hlive', hlive]
    omega

/-- Both halves, before the pending key goes in. -/
structure Halved (lay : Layout) (left l r : BtreePage) (level newPid n : Nat) (s : Key) : Prop where
  point : lay.findSplitPoint left = .ok n
  leftHalf : LeftHalf lay left l newPid n s
  rightHalf : RightHalf lay left r level newPid n
  rlink : r.rlink = left.rlink
  sentinel : ∃ c rest, lay.entries r = (s, c) :: rest

/-- A page with two tuples or more can be halved. -/
theorem halves_ok (h : PageInv lay left) (level newPid : Nat) (hc : 2 ≤ left.count) :
    ∃ l r s n, lay.halves left (.initHeader level newPid) newPid = .ok (l, r, s) ∧
      Halved lay left l r level newPid n s := by
  obtain ⟨n, hpoint⟩ := findSplitPoint_isOk lay hc
  obtain ⟨-, hn, hlt⟩ := findSplitPoint_ok hpoint
  obtain ⟨right, rightMax, hcopy, -, hright⟩ := copyHalfRight_ok h level newPid n
  obtain ⟨pg, hcompact, hpg⟩ := compactHeap_ok h (n := n) hlt.le
  have hr := hright left.rlink
  have hentries : lay.entries right = (lay.entries left).drop n := hr.entries
  have hne : lay.entries right ≠ [] := by
    intro hnil
    have := congrArg List.length (hentries.symm.trans hnil)
    rw [List.length_drop, length_entries, List.length_nil] at this
    omega
  obtain ⟨⟨s, c⟩, rest, hcons⟩ := List.exists_cons_of_ne_nil hne
  have hslot : lay.entry right (right.slot 0) = (s, c) := by
    have hpos : 0 < (lay.entries right).length := by rw [hcons]; simp
    rw [← getElem_entries hpos]
    simp [hcons]
  have hs : lay.slotKey right (right.slot 0) = s := congrArg Prod.fst hslot
  -- the sentinel is one of the tuples that moved right, so it fits
  have hslen : s.length = lay.slotLen right (right.slot 0) := by rw [← hs, length_slotKey]
  have hfootle : lay.foot s.length ≤ lay.liveFoot right := by
    rw [hslen]
    have hmem : right.slot 0 ∈ right.slots := by
      have hpos : 0 < right.slots.length := by
        have : 0 < (lay.entries right).length := by rw [hcons]; simp
        rwa [length_entries] at this
      simp [BtreePage.slot, List.getD_eq_getElem?_getD, hpos]
    exact List.single_le_sum (fun _ _ => Nat.zero_le _) _ (List.mem_map_of_mem hmem)
  have hrlive : lay.liveFoot right = ((left.slots.drop n).map (lay.recFoot left)).sum := hr.live
  have hlive := liveFoot_take_drop lay left n
  have htotal := h.total
  have hroom := h.room
  have hfilled := hpg.filled
  have hcount : pg.count = left.count := hpg.length
  have hklen : s.length < 2 ^ 16 := by rw [hslen]; exact slotLen_lt _
  have hchild : lay.slotChild right (right.slot 0) < 2 ^ 32 := slotChild_lt _
  have happ := appendHeap_iff hpg.aligned (by omega) hklen hchild
  obtain ⟨pg', off, hok⟩ := happ.2 (by omega)
  have ha := happ.1 pg' off hok
  have hrlink : pg'.rlink = left.rlink := by rw [ha.rlink, hpg.page]
  refine ⟨_, _, s, n, ?_, hpoint, leftHalf_ok h hpg ha, hr, rfl, c, rest, hcons⟩
  have hassert : assertThat (decide ((BtreePage.initHeader level newPid).heapOffset = db7PageSize))
      "Heap must not be filled" = .ok () := assertThat_ok.mpr (by simp [BtreePage.initHeader])
  rw [halves, hassert]
  refine bind_ok.mpr ⟨(), rfl, bind_ok.mpr ⟨n, hpoint, bind_ok.mpr ⟨_, hcopy, bind_ok.mpr
    ⟨pg, hcompact, ?_⟩⟩⟩⟩
  dsimp only
  rw [hs]
  exact bind_ok.mpr ⟨_, hok, by rw [hrlink]⟩

theorem halves_count {l r : BtreePage} {newPid : Nat} {s : Key}
    (h : lay.halves left right newPid = .ok (l, r, s)) : 2 ≤ left.count := by
  obtain ⟨_, -, h⟩ := bind_ok.mp h
  obtain ⟨n, hn, -⟩ := bind_ok.mp h
  exact (findSplitPoint_ok hn).1

/-- A split: the halves, and the pending key in the half that it belongs to. -/
structure Splits (lay : Layout) (left l r : BtreePage) (level newPid : Nat) (s key : Key)
    (child : Nat) : Prop where
  halved : ∃ l₀ r₀ n, Halved lay left l₀ r₀ level newPid n s ∧
    (s ≤ key ∧ l = l₀ ∧ Inserted lay r₀ r key child ∨
      key < s ∧ r = r₀ ∧ Inserted lay l₀ l key child)

/-- The left page keeps its level. -/
theorem Splits.level {l r : BtreePage} {level newPid child : Nat} {s key : Key}
    (h : Splits lay left l r level newPid s key child) : l.level = left.level := by
  obtain ⟨l₀, r₀, n, hh, hcase⟩ := h.halved
  rcases hcase with ⟨-, rfl, -⟩ | ⟨-, -, hins⟩
  · exact hh.leftHalf.level
  · exact hins.level.trans hh.leftHalf.level

theorem Halved.sorted {l r : BtreePage} {level newPid n : Nat} {s : Key} (hs : Sorted lay left)
    (h : Halved lay left l r level newPid n s) : Sorted lay l ∧ Sorted lay r := by
  constructor
  · rw [Sorted, h.leftHalf.entries]
    exact hs.sublist (List.take_sublist ..)
  · rw [Sorted, h.rightHalf.entries]
    exact hs.sublist (List.drop_sublist ..)

theorem split_ok (h : PageInv lay left) (hs : Sorted lay left) {key s : Key}
    {child level newPid : Nat} {l r : BtreePage} (hk : key.length < 2 ^ 16) (hc : child < 2 ^ 32)
    (hok : lay.split left (.initHeader level newPid) newPid key child = .ok (l, r, s)) :
    Splits lay left l r level newPid s key child := by
  obtain ⟨⟨l₀, r₀, s₀⟩, hhalves, hok⟩ := bind_ok.mp hok
  obtain ⟨l₁, r₁, s₁, n, hhalves', hh⟩ := halves_ok h level newPid (halves_count hhalves)
  obtain ⟨rfl, hrest⟩ := Prod.mk.inj (Except.ok.inj (hhalves.symm.trans hhalves'))
  obtain ⟨rfl, rfl⟩ := Prod.mk.inj hrest
  obtain ⟨hsl, hsr⟩ := hh.sorted hs
  dsimp only at hok
  split at hok <;> rename_i hcmp
  · obtain ⟨_, -, hok⟩ := bind_ok.mp hok
    obtain ⟨r', hins, hok⟩ := bind_ok.mp hok
    obtain ⟨rfl, hrest⟩ := Prod.mk.inj (Except.ok.inj hok)
    obtain ⟨rfl, rfl⟩ := Prod.mk.inj hrest
    exact ⟨_, _, n, hh, .inl ⟨cmpFull_nonpos.mp hcmp, rfl,
      insertTuple_ok hh.rightHalf.pageInv hsr hk hc hins⟩⟩
  · obtain ⟨_, -, hok⟩ := bind_ok.mp hok
    obtain ⟨l', hins, hok⟩ := bind_ok.mp hok
    obtain ⟨rfl, hrest⟩ := Prod.mk.inj (Except.ok.inj hok)
    obtain ⟨rfl, rfl⟩ := Prod.mk.inj hrest
    rw [cmpFull_nonpos, not_le] at hcmp
    exact ⟨_, _, n, hh, .inr ⟨hcmp, rfl, insertTuple_ok hh.leftHalf.pageInv hsl hk hc hins⟩⟩

end Layout

end Db7
