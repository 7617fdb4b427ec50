import Db7.Index.PageOps
import Db7.Lib.TSys

/-!
# The byte ranges of a page

A page as its callers drive it: fresh from `InitHeader` or `CreateRoot`, then
inserts that `HasSpace` let through, splits, of which the run goes on with either
half, and deletes. `ranges_ok`: the slots, the records and the fence keep to
ranges of their own, as long as no `HasSpace` computes an offset below zero.

`CalculateHeapOffset` subtracts in 16 bits before anybody compares. A key that is
longer than `heap_offset` wraps around, `HasSpace` sees an offset near 2^16 and
says yes, and `AppendHeap` writes behind the page (`wrap_breaks`).
-/

namespace Db7

open Lib

/-- A page, or why there is none: an assertion failed, or a record or slot left
the heap area. -/
abbrev PageState := Except Fault BtreePage

/-- What the index does with a page. -/
inductive PageAction
  | insert (key : Key) (child : Nat)
  | split (newPid : Nat) (key : Key) (child : Nat) (right : Bool)
  | delete (key : Key)
  deriving DecidableEq, Repr

namespace Layout

section Definitions

variable (lay : Layout)

/-- The slots' records and the fence. -/
def records (pg : BtreePage) : List Nat :=
  if pg.maxVal = undefinedOffset then pg.slots else pg.maxVal :: pg.slots

/-- The end of the record at `off`. -/
def recordEnd (pg : BtreePage) (off : Nat) : Nat := off + lay.hdrSize + lay.slotLen pg off

/-- The slot directory ends below the heap, every record lies in the heap, and
no two of them overlap. -/
structure RangesDisjoint (pg : BtreePage) : Prop where
  slots : headerSize + 2 * pg.count ≤ pg.heapOffset
  inPage : ∀ o ∈ records pg, pg.heapOffset ≤ o ∧ lay.recordEnd pg o ≤ db7PageSize
  apart : (records pg).Pairwise fun a b => lay.recordEnd pg a ≤ b ∨ lay.recordEnd pg b ≤ a

/-- Nothing was written outside its range. -/
def RangesOk : PageState → Prop
  | .ok pg => lay.RangesDisjoint pg
  | .error .overrun => False
  | .error (.assertion _) => True

/-- `Insert` of the page format. -/
def insertOn (pg : BtreePage) (key : Key) (child : Nat) : Except Fault BtreePage :=
  match lay with
  | leaf => BtreeVarlenLayoutLeaf.insert pg key
  | inter => BtreeVarlenLayoutIntermediate.insert pg key child

/-- `Split` of the page format, to a fresh page. -/
def splitOn (pg : BtreePage) (newPid : Nat) (key : Key) (child : Nat) :
    Except Fault (BtreePage × BtreePage × Key) :=
  match lay with
  | leaf => BtreeVarlenLayoutLeaf.split pg (.initHeader pg.level newPid) newPid key
  | inter => BtreeVarlenLayoutIntermediate.split pg (.initHeader pg.level newPid) newPid key child

/-- One call on the page. `Delete` asserts that the slot that its search ends at
has the key; past the last slot there is nothing to assert on. -/
def pageStep : PageState → PageAction → Option PageState
  | .ok pg, .insert key child => some (lay.insertOn pg key child)
  | .ok pg, .split newPid key child right =>
      some ((lay.splitOn pg newPid key child).map fun r => if right then r.2.1 else r.1)
  | .ok pg, .delete key =>
      if lay = leaf ∧ BtreeVarlenLayoutLeaf.findDeletePosition pg key < pg.count then
        some (BtreeVarlenLayoutLeaf.delete pg key)
      else none
  | .error _, _ => none

/-- `InitHeader`, or `CreateRoot` on a page that it has initialised. -/
def Fresh (s : PageState) : Prop :=
  (∃ level pid, s = .ok (.initHeader level pid)) ∨
    lay = inter ∧ ∃ level rootPid key pid newPid, key ≠ [] ∧ key.length < db7MaxRowSize ∧
      pid < 2 ^ 32 ∧ newPid < 2 ^ 32 ∧
        s = BtreeVarlenLayoutIntermediate.createRoot (.initHeader level rootPid) key pid newPid

/-- A page of the format as a transition system. -/
def pageSystem : TSys PageState PageAction := ⟨lay.Fresh, lay.pageStep⟩

/-- The calls that the index makes: a key that is not empty and fits in a row, a
page id, and for an insert that `HasSpace` said yes. -/
def Guarded : PageState → PageAction → Prop
  | .ok pg, .insert key child =>
      key ≠ [] ∧ key.length < db7MaxRowSize ∧ child < 2 ^ 32 ∧ lay.hasSpace pg key = true
  | _, .split _ key child _ => key ≠ [] ∧ key.length < db7MaxRowSize ∧ child < 2 ^ 32
  | _, _ => True

/-- No offset wraps: at each `HasSpace` that lets a key in, in front of `Insert`
and inside `Split`, the record is no longer than what is below the heap. -/
def NoWrap : PageState → PageAction → Prop
  | .ok pg, .insert key _ => lay.hdrSize + key.length ≤ pg.heapOffset
  | .ok pg, .split newPid key _ _ =>
      ∀ l r sentinel, lay.halves pg (.initHeader pg.level newPid) newPid = .ok (l, r, sentinel) →
        lay.hdrSize + key.length ≤ (if cmpFull sentinel key ≤ 0 then r else l).heapOffset
  | _, _ => True

end Definitions

variable {lay : Layout} {pg pg' left : BtreePage} {key : Key} {child : Nat}

/-! ## The fence and the tuples -/

variable (lay) in
/-- The fence does not overlap a tuple. -/
def FenceApart (pg : BtreePage) : Prop :=
  pg.maxVal ≠ undefinedOffset → ∀ o ∈ pg.slots,
    o + lay.recFoot pg o ≤ pg.maxVal ∨ pg.maxVal + lay.recFoot pg pg.maxVal ≤ o

theorem fenceApart_initHeader (level pid : Nat) : FenceApart lay (.initHeader level pid) :=
  fun h => absurd rfl h

/-- The new record lies below the fence. -/
theorem FenceApart.insertTuple (hf : FenceApart lay pg) (h : PageInv lay pg)
    (hk : key.length < 2 ^ 16) (hc : child < 2 ^ 32)
    (hok : lay.insertTuple pg key child = .ok pg') :
    FenceApart lay pg' := by
  obtain ⟨pg₁, off, idx, ha, -, hperm, -, rfl⟩ := insertTuple_appended h hk hc hok
  intro hmax o ho
  have hmax' : pg.maxVal ≠ undefinedOffset := by rwa [← ha.maxVal]
  obtain ⟨hfence, -⟩ := h.fence hmax'
  show o + lay.recFoot pg₁ o ≤ pg₁.maxVal ∨ pg₁.maxVal + lay.recFoot pg₁ pg₁.maxVal ≤ o
  rw [ha.maxVal]
  rcases List.mem_cons.mp (hperm.mem_iff.mp ho) with rfl | ho
  · have hadd := ha.off_add
    rw [ha.recFoot_eq]
    exact .inl (by omega)
  · rw [(ha.record (h.inHeap o ho).1).1, (ha.record hfence).1]
    exact hf hmax' o ho

/-- The copies of `CopyHalfRight` lie below what was there. -/
theorem copyAll_below (left : BtreePage) : ∀ (offs : List Nat) {right pg : BtreePage},
    PageInv lay right →
    headerSize + 2 * (right.count + offs.length) + (offs.map (lay.recFoot left)).sum ≤
      right.heapOffset →
    offs.foldlM (lay.copyOne left) right = .ok pg →
    ∀ o ∈ pg.slots, o ∈ right.slots ∨ o + lay.recFoot pg o ≤ right.heapOffset
  | [], right, pg, _, _, hok, o, ho => by
      obtain rfl := Except.ok.inj hok
      exact .inl ho
  | off :: offs, right, pg, h, hroom, hok, o, ho => by
      rw [List.map_cons, List.sum_cons, List.length_cons] at hroom
      obtain ⟨pg₁, hok₁, hc₁, hcount⟩ := copyOne_ok left off h (by omega)
      have hoff₁ := hc₁.offset
      rw [List.map_singleton, List.sum_singleton] at hoff₁
      rw [List.foldlM_cons, hok₁] at hok
      have hroom₁ : headerSize + 2 * (pg₁.count + offs.length) + (offs.map (lay.recFoot left)).sum ≤
          pg₁.heapOffset := by omega
      obtain ⟨pg₂, hok₂, hc₂⟩ := copyAll_ok left offs hc₁.pageInv hroom₁
      obtain rfl := Except.ok.inj (hok₂.symm.trans hok)
      rcases copyAll_below left offs hc₁.pageInv hroom₁ hok₂ o ho with hin | hle
      · -- the record copied first
        obtain ⟨⟨pg', off'⟩, happ, hone⟩ := bind_ok.mp hok₁
        obtain rfl := Except.ok.inj hone
        have hlen : (lay.slotKey left off).length = lay.slotLen left off := length_slotKey off
        have ha := (appendHeap_iff h.aligned h.le_pageSize
          (by rw [hlen]; exact slotLen_lt off) (slotChild_lt off)).1 pg' off' happ
        have hadd := ha.off_add
        rcases List.mem_append.mp hin with hin | hin
        · exact .inl (ha.slots ▸ hin)
        · obtain rfl := List.mem_singleton.mp hin
          have hrec := (hc₂.record o ha.heapOffset.le).1
          have hfoot : lay.recFoot { pg' with slots := pg'.slots ++ [o] } o =
            lay.foot (lay.slotKey left off).length := ha.recFoot_eq
          rw [hrec, hfoot]
          exact .inr hadd.le
      · exact .inr (by omega)

/-- The halves of a split: the right fence is the first record of its page, the
left one the last. -/
theorem fenceApart_halves (h : PageInv lay left) {level newPid : Nat} {l r : BtreePage} {s : Key}
    (hok : lay.halves left (.initHeader level newPid) newPid = .ok (l, r, s)) :
    FenceApart lay l ∧ FenceApart lay r := by
  obtain ⟨_, -, hok⟩ := bind_ok.mp hok
  obtain ⟨n, hpoint, hok⟩ := bind_ok.mp hok
  obtain ⟨⟨right, rightMax⟩, hcopy, hok⟩ := bind_ok.mp hok
  obtain ⟨packed, hcompact, hok⟩ := bind_ok.mp hok
  obtain ⟨⟨left', leftMax⟩, happ, hok⟩ := bind_ok.mp hok
  obtain ⟨rfl, hrest⟩ := Prod.mk.inj (Except.ok.inj hok)
  obtain ⟨rfl, -⟩ := Prod.mk.inj hrest
  obtain ⟨-, -, hlt⟩ := findSplitPoint_ok hpoint
  have hroom := h.room
  have htotal := h.total
  have hsplit := liveFoot_take_drop lay left n
  have hcount : (left.slots.drop n).length ≤ left.count := by simp [BtreePage.count]
  constructor
  · obtain ⟨pg, hcompact', hc⟩ := compactHeap_ok h hlt.le
    obtain rfl := Except.ok.inj (hcompact.symm.trans hcompact')
    have hfilled := hc.filled
    have hlen : (lay.slotKey right (right.slot 0)).length = lay.slotLen right (right.slot 0) :=
      length_slotKey _
    have ha := (appendHeap_iff hc.aligned (by omega) (by rw [hlen]; exact slotLen_lt _)
      (slotChild_lt _)).1 _ _ happ
    have hadd := ha.off_add
    intro _ o ho
    have ho' : o ∈ packed.slots.take n := by
      rw [← ha.slots]
      exact ho
    refine .inr ?_
    show leftMax + lay.recFoot left' leftMax ≤ o
    rw [ha.recFoot_eq, hadd]
    exact (hc.inHeap o ho').1
  · intro hmax o ho
    have hinit := @pageInv_initHeader lay level newPid
    by_cases hmax' : left.maxVal = undefinedOffset
    · simp only [copyHalfRight, hmax', ne_eq, not_true_eq_false, if_false] at hcopy
      obtain ⟨_, hfence, hcopy⟩ := bind_ok.mp hcopy
      obtain rfl := Except.ok.inj hfence
      obtain ⟨right₂, -, hcopy⟩ := bind_ok.mp hcopy
      obtain ⟨-, rfl⟩ := Prod.mk.inj (Except.ok.inj hcopy)
      exact absurd rfl hmax
    · simp only [copyHalfRight, hmax', ne_eq, not_false_eq_true, if_true] at hcopy
      obtain ⟨⟨right₁, rightMax₁⟩, hfence, hcopy⟩ := bind_ok.mp hcopy
      obtain ⟨right₂, hfold, hcopy⟩ := bind_ok.mp hcopy
      obtain ⟨rfl, rfl⟩ := Prod.mk.inj (Except.ok.inj hcopy)
      have hlen : (lay.slotKey left left.maxVal).length = lay.slotLen left left.maxVal :=
        length_slotKey _
      have hfoot : lay.foot (lay.slotKey left left.maxVal).length = lay.fenceFoot left := by
        rw [hlen, fenceFoot, if_neg hmax']
        rfl
      have ha := (appendHeap_iff hinit.aligned hinit.le_pageSize (by rw [hlen]; exact slotLen_lt _)
        (slotChild_lt _)).1 _ _ hfence
      have hadd := ha.off_add
      have hfull : (BtreePage.initHeader level newPid).heapOffset = db7PageSize := rfl
      have hnoslots : (BtreePage.initHeader level newPid).count = 0 := rfl
      have hcount₁ : right₁.count = 0 := by rw [BtreePage.count, ha.slots]; rfl
      have hoff₁ := ha.heapOffset
      have h₁ : PageInv lay right₁ := ha.pageInv hinit rfl ha.heapOffset
        (.inl ⟨ha.slots, by omega⟩) ha.maxVal
      refine .inl ?_
      show o + lay.recFoot right₂ o ≤ rightMax₁
      rcases copyAll_below left _ h₁ (by omega) hfold o ho with hin | hle
      · rw [ha.slots] at hin
        exact absurd hin (by simp [BtreePage.initHeader])
      · omega

/-! ## Nothing leaves the heap area -/

theorem bind_overrun {α β : Type} {x : Except Fault α} {f : α → Except Fault β} :
    (x >>= f) = .error .overrun ↔ x = .error .overrun ∨ ∃ a, x = .ok a ∧ f a = .error .overrun := by
  cases x <;> simp [bind, Except.bind]

theorem assertThat_ne_overrun {c : Bool} {m : String} : assertThat c m ≠ .error .overrun := by
  cases c <;> simp [assertThat]

theorem insertTuple_ne_overrun (h : PageInv lay pg) (hk : key.length < 2 ^ 16) (hc : child < 2 ^ 32)
    (hroom : headerSize + 2 * (pg.count + 1) + lay.foot key.length ≤ pg.heapOffset) :
    lay.insertTuple pg key child ≠ .error .overrun := by
  intro hover
  have happ := appendHeap_iff h.aligned h.le_pageSize hk hc
  obtain ⟨pg₁, off, hok⟩ := happ.2 (by omega)
  have ha := happ.1 pg₁ off hok
  have hadd := ha.off_add
  have hoff := ha.heapOffset
  have hcount : pg₁.count = pg.count := congrArg List.length ha.slots
  rcases bind_overrun.mp hover with happ' | ⟨⟨pg₂, off₂⟩, happ', hover⟩
  · rw [hok] at happ'
    exact absurd happ' (by simp)
  · obtain ⟨rfl, rfl⟩ := Prod.mk.inj (Except.ok.inj (hok.symm.trans happ'))
    rcases bind_overrun.mp hover with hfind | ⟨idx, -, hover⟩
    · -- the search may fail an assertion, but no more
      cases lay with
      | leaf => exact absurd hfind (by simp [findInsertPosition])
      | inter =>
          simp only [findInsertPosition] at hfind
          split at hfind <;> exact absurd hfind (by simp)
    · rw [if_pos (by omega)] at hover
      exact absurd hover (by simp)

variable (lay) in
/-- What holds of every page of a run. -/
def PageGood : PageState → Prop
  | .ok pg => PageInv lay pg ∧ FenceApart lay pg
  | .error fault => fault ≠ .overrun

/-- An insert that `HasSpace` lets through without a wrap. -/
theorem pageGood_insertTuple (h : PageInv lay pg) (hf : FenceApart lay pg)
    (hk : key.length < 2 ^ 16) (hc : child < 2 ^ 32) (hspace : lay.hasSpace pg key = true)
    (hnowrap : lay.hdrSize + key.length ≤ pg.heapOffset) :
    PageGood lay (lay.insertTuple pg key child) := by
  have hfoot := foot_le_of_aligned h.aligned hnowrap
  have hroom := (hasSpace_iff h hfoot).mp hspace
  cases hok : lay.insertTuple pg key child with
  | ok pg' =>
      obtain ⟨pg₁, off, idx, ha, -, hperm, hslots, rfl⟩ := insertTuple_appended h hk hc hok
      exact ⟨ha.pageInv h rfl ha.heapOffset (.inr ⟨hperm, hslots⟩) ha.maxVal,
        hf.insertTuple h hk hc hok⟩
  | error fault =>
      rintro rfl
      exact insertTuple_ne_overrun h hk hc hroom hok

theorem pageGood_insertOn (h : PageInv lay pg) (hf : FenceApart lay pg)
    (hk : key.length < db7MaxRowSize) (hc : child < 2 ^ 32) (hspace : lay.hasSpace pg key = true)
    (hnowrap : lay.hdrSize + key.length ≤ pg.heapOffset) :
    PageGood lay (lay.insertOn pg key child) := by
  have hrow : db7MaxRowSize = 819 := rfl
  cases lay with
  | leaf =>
      show PageGood leaf (assertThat _ _ >>= fun _ => leaf.insertTuple pg key 0)
      rw [assertThat, if_pos (by simpa using hk)]
      exact pageGood_insertTuple h hf (by omega) (by decide) hspace hnowrap
  | inter =>
      show PageGood inter (assertThat _ _ >>= fun _ => assertThat _ _ >>= fun _ => _)
      rw [assertThat, if_pos (by simpa using hk)]
      show PageGood inter (assertThat (decide (child ≠ 0)) _ >>= fun _ =>
        inter.insertTuple pg key child)
      by_cases hzero : child = 0
      · rw [assertThat, if_neg (by simpa using hzero)]
        exact fun h => Fault.noConfusion h
      · rw [assertThat, if_pos (by simpa using hzero)]
        exact pageGood_insertTuple h hf (by omega) hc hspace hnowrap

/-- `FindSplitPoint` asserts that there are two tuples. -/
theorem split_of_lt_two (level newPid : Nat) (hcount : ¬ 2 ≤ pg.count) :
    lay.split pg (.initHeader level newPid) newPid key child =
      .error (.assertion "cannot split fewer than two tuples") := by
  have hfind :
      lay.findSplitPoint pg = .error (.assertion "cannot split fewer than two tuples") := by
    unfold findSplitPoint
    rw [assertThat, if_neg (by simpa using hcount)]
    rfl
  simp only [split, halves, hfind, BtreePage.initHeader]
  rfl

/-- Either page of a split. -/
theorem pageGood_split (h : PageInv lay pg) {newPid : Nat} (hk : key.length < db7MaxRowSize)
    (hc : child < 2 ^ 32)
    (hnowrap : ∀ l r s, lay.halves pg (.initHeader pg.level newPid) newPid = .ok (l, r, s) →
      lay.hdrSize + key.length ≤ (if cmpFull s key ≤ 0 then r else l).heapOffset) (right : Bool) :
    PageGood lay ((lay.split pg (.initHeader pg.level newPid) newPid key child).map
      fun r => if right then r.2.1 else r.1) := by
  have hrow : db7MaxRowSize = 819 := rfl
  by_cases hcount : 2 ≤ pg.count
  · obtain ⟨l, r, s, n, hhalves, hh⟩ := halves_ok h pg.level newPid hcount
    obtain ⟨hfl, hfr⟩ := fenceApart_halves h hhalves
    have hl := hh.leftHalf.pageInv
    have hr := hh.rightHalf.pageInv
    have hno := hnowrap l r s hhalves
    have hsplit : lay.split pg (.initHeader pg.level newPid) newPid key child =
        if cmpFull s key ≤ 0 then
          assertThat (lay.hasSpace r key) "new key does not fit in right half after split" >>=
            fun _ =>
            lay.insertTuple r key child >>= fun r' => .ok (l, r', s)
        else
          assertThat (lay.hasSpace l key) "new key does not fit in left half after split" >>=
            fun _ =>
            lay.insertTuple l key child >>= fun l' => .ok (l', r, s) := by
      simp only [split, hhalves]
      rfl
    rw [hsplit]
    by_cases hcmp : cmpFull s key ≤ 0
    · rw [if_pos hcmp] at hno ⊢
      by_cases hspace : lay.hasSpace r key = true
      · have hgood := pageGood_insertTuple hr hfr (by omega) hc hspace hno
        rw [assertThat, if_pos hspace]
        cases hins : lay.insertTuple r key child with
        | ok r' =>
            rw [hins] at hgood
            cases right
            · exact ⟨hl, hfl⟩
            · exact hgood
        | error fault =>
            rw [hins] at hgood
            exact hgood
      · rw [assertThat, if_neg hspace]
        exact fun h => Fault.noConfusion h
    · rw [if_neg hcmp] at hno ⊢
      by_cases hspace : lay.hasSpace l key = true
      · have hgood := pageGood_insertTuple hl hfl (by omega) hc hspace hno
        rw [assertThat, if_pos hspace]
        cases hins : lay.insertTuple l key child with
        | ok l' =>
            rw [hins] at hgood
            cases right
            · exact hgood
            · exact ⟨hr, hfr⟩
        | error fault =>
            rw [hins] at hgood
            exact hgood
      · rw [assertThat, if_neg hspace]
        exact fun h => Fault.noConfusion h
  · -- one tuple cannot be split
    rw [split_of_lt_two pg.level newPid hcount]
    exact fun h => Fault.noConfusion h

theorem pageGood_delete (h : PageInv leaf pg) (hf : FenceApart leaf pg)
    (hidx : BtreeVarlenLayoutLeaf.findDeletePosition pg key < pg.count) :
    PageGood leaf (BtreeVarlenLayoutLeaf.delete pg key) := by
  simp only [BtreeVarlenLayoutLeaf.delete, if_pos hidx]
  generalize BtreeVarlenLayoutLeaf.findDeletePosition pg key = idx
  by_cases hcmp : cmpFull (leaf.slotKey pg (pg.slot idx)) key = 0
  · have hsub : (pg.slots.eraseIdx idx).Sublist pg.slots := List.eraseIdx_sublist ..
    rw [assertThat, if_pos (by simpa using hcmp)]
    exact ⟨h.sublist hsub, fun hmax o ho => hf hmax o (hsub.subset ho)⟩
  · rw [assertThat, if_neg (by simpa using hcmp)]
    exact fun h => Fault.noConfusion h

theorem pageGood_createRoot {level rootPid pid newPid : Nat} (hne : key ≠ [])
    (hk : key.length < db7MaxRowSize) (hpid : pid < 2 ^ 32) (hnew : newPid < 2 ^ 32) :
    PageGood inter
      (BtreeVarlenLayoutIntermediate.createRoot (.initHeader level rootPid) key pid newPid) := by
  have hrow : db7MaxRowSize = 819 := rfl
  cases hok :
    BtreeVarlenLayoutIntermediate.createRoot (.initHeader level rootPid) key pid newPid with
  | ok pg =>
      obtain ⟨hinv, -, hhigh, -⟩ :=
        BtreeVarlenLayoutIntermediate.createRoot_ok (by omega) hne hpid hnew hok
      refine ⟨hinv, fun hmax => ?_⟩
      rw [Layout.high, if_neg hmax] at hhigh
      exact absurd hhigh (by simp)
  | error fault =>
      rintro rfl
      -- two records fit in an empty page
      have hinit := @pageInv_initHeader inter level rootPid
      have hempty : ([] : Key).length < 2 ^ 16 := by decide
      have happ₁ := appendHeap_iff hinit.aligned hinit.le_pageSize hempty hpid
      have hfull : (BtreePage.initHeader level rootPid).heapOffset = db7PageSize := rfl
      have hpage : db7PageSize = 8192 := rfl
      have hhdr : headerSize = 20 := rfl
      have hcount : (BtreePage.initHeader level rootPid).count = 0 := rfl
      have hfoot0 : inter.foot ([] : Key).length = 8 := rfl
      obtain ⟨pg₁, first, hok₁⟩ := happ₁.2 (by omega)
      have ha₁ := happ₁.1 _ _ hok₁
      have hadd₁ := ha₁.off_add
      have hoff₁ := ha₁.heapOffset
      have hone : PageInv inter { pg₁ with slots := [first] } :=
        ha₁.pageInv hinit rfl hoff₁ (.inr ⟨.refl _, by omega⟩) ha₁.maxVal
      have hfoot := inter.foot_lt key.length
      have hfoothdr : inter.hdrSize = 8 := rfl
      have halign : inter.align = 4 := rfl
      have hcount₁ : BtreePage.count { pg₁ with slots := [first] } = 1 := rfl
      have hoff₁' : BtreePage.heapOffset { pg₁ with slots := [first] } = first := hoff₁
      have hk16 : key.length < 2 ^ 16 := by omega
      obtain ⟨pg₂, second, hok₂⟩ :=
        (appendHeap_iff hone.aligned hone.le_pageSize hk16 hnew).2 (by omega)
      rcases bind_overrun.mp hok with herr | ⟨⟨_, _⟩, hok₁', herr⟩
      · rw [hok₁] at herr
        exact absurd herr (by simp)
      · obtain ⟨rfl, rfl⟩ := Prod.mk.inj (Except.ok.inj (hok₁.symm.trans hok₁'))
        rcases bind_overrun.mp herr with herr | ⟨_, -, herr⟩
        · rw [hok₂] at herr
          exact absurd herr (by simp)
        · exact absurd herr (by simp)

/-- A step that does not wrap. -/
theorem PageGood.step {s s' : PageState} {a : PageAction} (h : PageGood lay s)
    (hg : lay.Guarded s a) (hn : lay.NoWrap s a) (hs : lay.pageStep s a = some s') :
    PageGood lay s' := by
  cases s with
  | error fault => exact absurd hs (by simp [pageStep])
  | ok pg =>
      obtain ⟨hinv, hfence⟩ := h
      cases a with
      | insert key child =>
          obtain ⟨-, hk, hc, hspace⟩ := hg
          obtain rfl := Option.some.inj hs
          exact pageGood_insertOn hinv hfence hk hc hspace hn
      | split newPid key child right =>
          obtain ⟨-, hk, hc⟩ := hg
          obtain rfl := Option.some.inj hs
          cases lay with
          | leaf => exact pageGood_split hinv hk (by decide) hn right
          | inter => exact pageGood_split hinv hk hc hn right
      | delete key =>
          simp only [pageStep, Option.ite_none_right_eq_some, Option.some.injEq] at hs
          obtain ⟨⟨rfl, hidx⟩, rfl⟩ := hs
          exact pageGood_delete hinv hfence hidx

theorem PageGood.rangesOk {s : PageState} (h : PageGood lay s) : lay.RangesOk s := by
  cases s with
  | error fault =>
      cases fault with
      | overrun => exact absurd rfl h
      | assertion message => trivial
  | ok pg =>
      obtain ⟨hinv, hfence⟩ := h
      have hend : ∀ o, lay.recordEnd pg o ≤ o + lay.recFoot pg o := by
        intro o
        have := lay.le_foot (lay.slotLen pg o)
        unfold recordEnd recFoot
        omega
      have hin : ∀ o ∈ pg.slots, pg.heapOffset ≤ o ∧ lay.recordEnd pg o ≤ db7PageSize :=
        fun o ho => ⟨(hinv.inHeap o ho).1, (hend o).trans (hinv.inHeap o ho).2⟩
      have hapart : pg.slots.Pairwise fun a b => lay.recordEnd pg a ≤ b ∨ lay.recordEnd pg b ≤ a :=
        hinv.apart.imp fun hab => hab.imp (hend _).trans (hend _).trans
      by_cases hmax : pg.maxVal = undefinedOffset
      · have hrecords : records pg = pg.slots := if_pos hmax
        exact ⟨hinv.room, hrecords ▸ hin, hrecords ▸ hapart⟩
      · have hrecords : records pg = pg.maxVal :: pg.slots := if_neg hmax
        obtain ⟨hlow, hhigh⟩ := hinv.fence hmax
        refine ⟨hinv.room, ?_, ?_⟩
        · rw [hrecords]
          exact List.forall_mem_cons.mpr ⟨⟨hlow, (hend _).trans hhigh⟩, hin⟩
        · rw [hrecords]
          refine List.pairwise_cons.mpr ⟨fun o ho => ?_, hapart⟩
          exact (hfence hmax o ho).symm.imp (hend _).trans (hend _).trans

/-! ## The ranges of every page -/

/-- **Every page keeps its ranges apart** on the runs in which no `HasSpace`
computes an offset that wraps. -/
theorem ranges_ok {s : PageState}
    (hs : (lay.pageSystem).ReachableBy (fun s a => lay.Guarded s a ∧ lay.NoWrap s a) s) :
    lay.RangesOk s := by
  refine (hs.invariant (P := PageGood lay) ?_ ?_).rangesOk
  · rintro s₀
      (⟨level, pid, rfl⟩ | ⟨rfl, level, rootPid, key, pid, newPid, hne, hk, hpid, hnew, rfl⟩)
    · exact ⟨pageInv_initHeader level pid, fenceApart_initHeader level pid⟩
    · exact pageGood_createRoot hne hk hpid hnew
  · intro s a s' h hc hst
    exact h.step hc.1 hc.2 hst

/-- Where the offset wraps, `HasSpace` says yes and the record leaves the page. -/
theorem wrap_breaks (h : PageInv lay pg) (hk : key.length < db7MaxRowSize)
    (hwrap : pg.heapOffset < lay.hdrSize + key.length) :
    lay.hasSpace pg key = true ∧ lay.insertTuple pg key child = .error .overrun := by
  have hrow : db7MaxRowSize = 819 := rfl
  have hpage : db7PageSize = 8192 := rfl
  have hhdr : headerSize = 20 := rfl
  have hroom := h.room
  have hle := h.le_pageSize
  have hfoot := lay.le_foot key.length
  have hk16 : key.length < 2 ^ 16 := by omega
  have hend := calculateHeapOffset_wrap lay h.aligned hle hk16 (by omega)
  constructor
  · have hcount : u16 ((pg.count + 1) * 2) = (pg.count + 1) * 2 := Nat.mod_eq_of_lt (by omega)
    simp only [hasSpace, hcount, ge_iff_le, decide_eq_true_eq]
    cases lay <;> simp only [calculateHeapOffset, u16, hdrSize, align] at * <;> omega
  · have happ : lay.appendHeap pg key child = .error .overrun := by
      unfold appendHeap
      exact if_neg (by omega)
    unfold insertTuple
    rw [happ]
    rfl

instance (lay : Layout) (s : PageState) (a : PageAction) : Decidable (lay.Guarded s a) := by
  cases s <;> cases a <;> unfold Guarded <;> infer_instance

instance (lay : Layout) (s : PageState) (a : PageAction) : Decidable (lay.NoWrap s a) := by
  cases s with
  | error fault => exact isTrue (by cases a <;> trivial)
  | ok pg =>
      cases a with
      | insert key child =>
          exact inferInstanceAs (Decidable (lay.hdrSize + key.length ≤ pg.heapOffset))
      | delete key => exact isTrue trivial
      | split newPid key child right =>
          cases hhalves : lay.halves pg (.initHeader pg.level newPid) newPid with
          | error fault => exact isTrue (by simp [NoWrap, hhalves])
          | ok r =>
              obtain ⟨l, r, s⟩ := r
              exact decidable_of_iff
                (lay.hdrSize + key.length ≤ (if cmpFull s key ≤ 0 then r else l).heapOffset)
                ⟨fun hle l' r' s' h => by
                  obtain ⟨rfl, hrest⟩ := Prod.mk.inj (Except.ok.inj (hhalves.symm.trans h))
                  obtain ⟨rfl, rfl⟩ := Prod.mk.inj hrest
                  exact hle, fun hall => hall l r s hhalves⟩

/-- A key of the greatest length. -/
def longest (i : Nat) : Key := byte i :: List.replicate 817 (byte 0)

/-- A leaf of nine short keys that is split. -/
theorem ranges_ok_split : ∃ pg, (leaf.pageSystem).ReachableBy
    (fun s a => leaf.Guarded s a ∧ leaf.NoWrap s a) (.ok pg) ∧ pg.count = 2 ∧
      leaf.RangesOk (.ok pg) := by
  have hrun : ((leaf.pageSystem).exec (fun s a => leaf.Guarded s a ∧ leaf.NoWrap s a)
      (.ok (.initHeader 0 1)) [.insert (toBE 9 1) 0, .insert (toBE 9 3) 0, .insert (toBE 9 5) 0,
        .delete (toBE 9 3), .split 2 (toBE 9 7) 0 true]).map
          (fun s => s.toOption.map BtreePage.count) = some (some 2) := by
    decide +kernel
  obtain ⟨s, hexec, hview⟩ := Option.map_eq_some_iff.mp hrun
  cases s with
  | error fault => exact absurd hview (by simp [Except.toOption])
  | ok pg =>
      have hs :
          (leaf.pageSystem).ReachableBy (fun s a => leaf.Guarded s a ∧ leaf.NoWrap s a) (.ok pg) :=
        ⟨_, .inl ⟨0, 1, rfl⟩, TSys.Steps.of_exec _ hexec⟩
      exact ⟨pg, hs, by simpa [Except.toOption] using hview, ranges_ok hs⟩

/-- Nine keys of 818 bytes leave 812 bytes below the heap; `HasSpace` lets a tenth
in, and its record starts at 65528. -/
theorem ranges_broken : ¬ ∀ (lay : Layout) (s : PageState),
    (lay.pageSystem).ReachableBy lay.Guarded s → lay.RangesOk s := by
  intro hall
  have hrun : ((leaf.pageSystem).exec leaf.Guarded (.ok (.initHeader 0 1))
      ((List.range 10).map fun i => .insert (longest i) 0)).map
        (fun s => match s with | .error fault => some fault | .ok _ => none) =
          some (some .overrun) := by
    decide +kernel
  obtain ⟨s, hexec, hview⟩ := Option.map_eq_some_iff.mp hrun
  have hbad := hall leaf s ⟨_, .inl ⟨0, 1, rfl⟩, TSys.Steps.of_exec _ hexec⟩
  cases s with
  | ok pg => exact absurd hview (by simp)
  | error fault =>
      obtain rfl : fault = .overrun := by simpa using hview
      exact hbad

end Layout

end Db7
