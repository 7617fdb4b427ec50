import Db7.Index.NodePins
import Db7.Index.PageOps

/-!
# The searches of a page

The binary searches over the slots, by two comparisons: `CmpFull` has the keys in
order, `CmpPrefix` leaves the id out. On a page that is strictly sorted by `CmpFull`:

* **counts**: `FindInsertPosition` and `FindChild` end at the number of slots below
  the key, and at or below it (`findInsertPosition_eq`, `findChild_eq`);
* **the start position**: `CmpPrefix` is monotone too when no column part is a proper
  prefix of another, and parts the slots where `CmpFull` does for the id 0
  (`findStartPosition_parts`);
* **the run**: the slots with the columns that are looked for are the ones from there
  on, up to the first other one (`exists_run`); `Get` and `CheckUnique` go over them.
-/

namespace Db7

open Lib KeyNormEncoder

namespace Layout

variable {lay : Layout} {pg : BtreePage} {main : Key}

variable (lay) in
/-- The slots are strictly sorted by `CmpFull`. -/
def StrictlySorted (pg : BtreePage) : Prop :=
  ∀ j, j < pg.count → ∀ i, i < j →
    cmpFull (lay.slotKey pg (pg.slot i)) (lay.slotKey pg (pg.slot j)) < 0

theorem StrictlySorted.sorted (h : lay.StrictlySorted pg) : Sorted lay pg := by
  refine List.pairwise_iff_getElem.mpr fun i j hi hj hij => ?_
  rw [getElem_entries, getElem_entries]
  exact cmpFull_neg.mp (h j (by rwa [length_entries] at hj) i hij)

theorem slot_eq {i : Nat} (hi : i < pg.slots.length) : pg.slot i = pg.slots[i] := by
  simp [BtreePage.slot, List.getD_eq_getElem?_getD, hi]

/-- A search that parts the slots by their keys counts them. -/
theorem countP_of_parts (q : Key → Bool) {r : Nat}
    (h : Parts (fun i => q (lay.slotKey pg (pg.slot i))) pg.count r) :
    pg.slots.countP (fun o => q (lay.slotKey pg o)) = r := by
  refine h.countP fun i hi => ?_
  rw [slot_eq hi]

theorem findInsertPosition_eq (hs : Sorted lay pg)
    (habsent : lay = inter → ∀ o ∈ pg.slots, cmpFull (lay.slotKey pg o) main ≠ 0) :
    lay.findInsertPosition pg main =
      .ok (pg.slots.countP fun o => decide (cmpFull (lay.slotKey pg o) main < 0)) := by
  have hmono := parts_insert hs main
  cases lay with
  | leaf =>
      have hparts := partitionPoint_parts
        (p := fun i => decide (cmpFull (leaf.slotKey pg (pg.slot i)) main < 0)) (n := pg.count)
        (by simpa using hmono)
      exact congrArg Except.ok (countP_of_parts (fun k => decide (cmpFull k main < 0)) hparts).symm
  | inter =>
      simp only [findInsertPosition]
      split <;> rename_i hsearch
      · have hparts := (partitionPointNe_some hmono hsearch).1
        rw [countP_of_parts (fun k => decide (cmpFull k main < 0)) hparts]
      · refine absurd hsearch (partitionPointNe_ne_none hmono fun i hi => ?_)
        rw [slot_eq hi]
        exact habsent rfl _ (List.getElem_mem hi)

end Layout

namespace BtreeVarlenLayoutIntermediate

open Layout (inter)

variable {pg : BtreePage} {main : Key}

theorem findChild_eq (hs : Layout.Sorted .inter pg) :
    findChild pg main = pg.slots.countP fun o => decide (cmpFull (inter.slotKey pg o) main ≤ 0) :=
  (Layout.countP_of_parts (fun k => decide (cmpFull k main ≤ 0)) (findChild_parts main hs)).symm

end BtreeVarlenLayoutIntermediate

namespace BtreeVarlenLayoutLeaf

open Layout (leaf)

variable {pg : BtreePage} {key : Key}

/-- An equal key is the one that `FindDeletePosition` finds. -/
theorem findDeletePosition_eq (hs : Layout.Sorted .leaf pg) {i : Nat} (hi : i < pg.count)
    (heq : cmpFull (leaf.slotKey pg (pg.slot i)) key = 0) : findDeletePosition pg key = i := by
  refine searchEq_eq (fun a b hab hb hle => ?_) hi heq
  exact cmpFull_neg.mpr ((Layout.key_lt_key hs hab hb).trans_le (cmpFull_nonpos.mp hle))

/-- The keys of a leaf, and a searched one. -/
def keysWith (pg : BtreePage) (key : Key) : List Key := key :: pg.slots.map (leaf.slotKey pg)

/-- Every key fits in a row and is a column part and an id, and no column part is a
proper prefix of another. -/
structure Columned (pg : BtreePage) (key : Key) : Prop where
  length : ∀ k ∈ keysWith pg key, 8 ≤ k.length ∧ k.length < db7MaxRowSize
  parts : ∀ a ∈ keysWith pg key, ∀ b ∈ keysWith pg key,
    columnPart a <+: columnPart b → columnPart a = columnPart b

namespace Columned

variable {i j : Nat}

theorem slotKey_mem (hi : i < pg.count) : leaf.slotKey pg (pg.slot i) ∈ keysWith pg key := by
  rw [Layout.slot_eq hi]
  exact List.mem_cons_of_mem _ (List.mem_map_of_mem (List.getElem_mem hi))

/-- `CmpPrefix` is zero on the slots with the columns, whatever the id. -/
theorem cmpPrefix_eq_zero (h : Columned pg key) (hi : i < pg.count) {k : Key} (hk : 8 ≤ k.length)
    (hpart : columnPart k = columnPart key) :
    cmpPrefix (leaf.slotKey pg (pg.slot i)) k = 0 ↔
      columnPart (leaf.slotKey pg (pg.slot i)) = columnPart key := by
  obtain ⟨hlen, hmax⟩ := h.length _ (slotKey_mem hi)
  rw [← hpart]
  exact Db7.cmpPrefix_eq_zero hlen hk (by omega)

/-- `CmpPrefix` is negative on the slots below the columns with the id 0. -/
theorem cmpPrefix_neg (h : Columned pg key) (hi : i < pg.count) :
    cmpPrefix (leaf.slotKey pg (pg.slot i)) key < 0 ↔
      leaf.slotKey pg (pg.slot i) < buildKey (columnPart key) 0 := by
  have hmem := @slotKey_mem pg key i hi
  obtain ⟨hlen, hmax⟩ := h.length _ hmem
  obtain ⟨hkey, -⟩ := h.length key List.mem_cons_self
  by_cases hpart : columnPart (leaf.slotKey pg (pg.slot i)) = columnPart key
  · -- a tie of the columns: the id 0 is the least
    have hzero := (h.cmpPrefix_eq_zero hi hkey rfl).mpr hpart
    have hle := buildKey_zero_le (columnPart key) (result_lt hlen)
    rw [← hpart, buildKey_columnPart hlen, hpart] at hle
    simp [hzero, not_lt.mpr hle]
  · have hcmp := Db7.cmpPrefix_neg (p := columnPart (leaf.slotKey pg (pg.slot i)))
      (q := columnPart key) (fun hpre => hpart (h.parts _ hmem _ List.mem_cons_self hpre))
      (fun hpre => hpart (h.parts _ List.mem_cons_self _ hmem hpre).symm)
      (by rw [columnPart, List.length_take]; omega)
      (result (leaf.slotKey pg (pg.slot i))) (result key) 0
    rwa [buildKey_columnPart hlen, buildKey_columnPart hkey] at hcmp

/-- Between the columns with the id 0 and a slot with the columns there are no others. -/
theorem between (h : Columned pg key) (hs : Layout.Sorted .leaf pg) (hij : i ≤ j)
    (hj : j < pg.count) (hge : buildKey (columnPart key) 0 ≤ leaf.slotKey pg (pg.slot i))
    (hpart : columnPart (leaf.slotKey pg (pg.slot j)) = columnPart key) :
    columnPart (leaf.slotKey pg (pg.slot i)) = columnPart key := by
  have hmem := @slotKey_mem pg key i (by omega)
  have hlen := (h.length _ hmem).1
  have hlen' := (h.length _ (@slotKey_mem pg key j hj)).1
  have hle := Layout.key_le_key hs hij hj
  rw [← buildKey_columnPart hlen, ← buildKey_columnPart hlen', hpart] at hle
  rw [← buildKey_columnPart hlen] at hge
  have hfree : PrefixFree fun p => ∃ k ∈ keysWith pg key, columnPart k = p := by
    rintro _ _ ⟨a, ha, rfl⟩ ⟨b, hb, rfl⟩
    exact h.parts a ha b hb
  exact eq_of_between hfree ⟨key, List.mem_cons_self, rfl⟩ ⟨_, hmem, rfl⟩ hge hle

end Columned

/-- The two searches part the slots at the same index. -/
theorem findStartPosition_parts (hs : Layout.Sorted .leaf pg) (hc : Columned pg key) :
    Parts (fun i =>
      decide (cmpFull (leaf.slotKey pg (pg.slot i)) (buildKey (columnPart key) 0) < 0))
      pg.count (findStartPosition pg key) := by
  have hmono : ∀ i j, i ≤ j → j < pg.count →
      cmpPrefix (leaf.slotKey pg (pg.slot j)) key < 0 →
        cmpPrefix (leaf.slotKey pg (pg.slot i)) key < 0 := by
    intro i j hij hj hlt
    rw [hc.cmpPrefix_neg hj] at hlt
    rw [hc.cmpPrefix_neg (by omega)]
    exact (Layout.key_le_key hs hij hj).trans_lt hlt
  have hparts := partitionPoint_parts
    (p := fun i => decide (cmpPrefix (leaf.slotKey pg (pg.slot i)) key < 0)) (n := pg.count)
    (by simpa using hmono)
  refine hparts.congr fun i hi => ?_
  rw [decide_eq_decide, hc.cmpPrefix_neg hi, cmpFull_neg]

/-- The slots with the columns are a run from the parting point on, and a loop that
compares by `CmpPrefix` goes over it. -/
theorem exists_run (hs : Layout.Sorted .leaf pg) (hc : Columned pg key) {r : Nat}
    (hr : Parts
      (fun i => decide (cmpFull (leaf.slotKey pg (pg.slot i)) (buildKey (columnPart key) 0) < 0))
      pg.count r) :
    ∃ e, r ≤ e ∧ e ≤ pg.count ∧
      (∀ i, i < pg.count → (columnPart (leaf.slotKey pg (pg.slot i)) = columnPart key ↔
        r ≤ i ∧ i < e)) ∧
      ∀ k, 8 ≤ k.length → columnPart k = columnPart key →
        ((pg.slots.drop r).map (leaf.slotKey pg)).takeWhile (fun cur => cmpPrefix cur k = 0) =
          ((pg.slots.take e).drop r).map (leaf.slotKey pg) := by
  have hle := hr.le
  have hge : ∀ i, r ≤ i → i < pg.count →
      buildKey (columnPart key) 0 ≤ leaf.slotKey pg (pg.slot i) := by
    intro i hi hcount
    have hfail := hr.after i hi hcount
    rw [decide_eq_false_iff_not, cmpFull_neg] at hfail
    exact not_lt.mp hfail
  -- the run ends where the columns are others for the first time after `r`
  have hrun := partitionPoint_parts
    (p := fun i => decide (columnPart (leaf.slotKey pg (pg.slot (r + i))) = columnPart key))
    (n := pg.count - r) (fun i j hij hj hpart => by
      rw [decide_eq_true_eq] at hpart ⊢
      exact hc.between hs (by omega) (by omega) (hge _ (by omega) (by omega)) hpart)
  generalize partitionPoint _ _ _ _ = m at hrun
  have hm := hrun.le
  refine ⟨r + m, by omega, by omega, fun i hi => ⟨fun hpart => ?_, fun ⟨hri, him⟩ => ?_⟩,
    fun k hk hpart => ?_⟩
  · have hri : r ≤ i := by
      by_contra hlt
      -- a slot with the columns is not below them with the id 0
      have hbefore := hr.before i (by omega)
      rw [decide_eq_true_eq, cmpFull_neg, ← hc.cmpPrefix_neg hi] at hbefore
      rw [(hc.cmpPrefix_eq_zero hi (hc.length key List.mem_cons_self).1 rfl).mpr hpart] at hbefore
      exact absurd hbefore (by decide)
    refine ⟨hri, ?_⟩
    by_contra hend
    have hafter := hrun.after (i - r) (by omega) (by omega)
    rw [Nat.add_sub_cancel' hri] at hafter
    exact of_decide_eq_false hafter hpart
  · have hbefore := hrun.before (i - r) (by omega)
    rw [Nat.add_sub_cancel' hri] at hbefore
    exact of_decide_eq_true hbefore
  · have hcount : ((pg.slots.drop r).map (leaf.slotKey pg)).length = pg.count - r := by
      rw [List.length_map, List.length_drop]
      rfl
    rw [← hcount] at hrun
    have htake := hrun.takeWhile (q := fun cur => decide (cmpPrefix cur k = 0)) fun i hi => by
      have hi' : r + i < pg.slots.length := by rw [hcount] at hi; exact Nat.add_lt_of_lt_sub' hi
      rw [decide_eq_decide, List.getElem_map, List.getElem_drop, ← Layout.slot_eq hi']
      exact (hc.cmpPrefix_eq_zero hi' hk hpart).symm
    rw [htake, ← List.map_take, List.drop_take, Nat.add_sub_cancel_left]

/-- `r .. e` are the slots with the columns of the key: the searches end at `r`, `Get`
returns the ids of these slots and `CheckUnique` asks for them. -/
structure ColumnRun (pg : BtreePage) (key : Key) (r e : Nat) : Prop where
  le : r ≤ e
  bound : e ≤ pg.count
  insertPosition : leaf.findInsertPosition pg (buildKey (columnPart key) 0) = .ok r
  startPosition : findStartPosition pg key = r
  slots : ∀ i, i < pg.count →
    (columnPart (leaf.slotKey pg (pg.slot i)) = columnPart key ↔ r ≤ i ∧ i < e)
  get : (get pg (buildKey (columnPart key) 0)).1 =
    (((pg.slots.take e).drop r).map (leaf.slotKey pg)).map result
  checkUnique : ∀ conflict, checkUnique pg key conflict true =
    if ((((pg.slots.take e).drop r).map (leaf.slotKey pg)).map result).any conflict then none
    else some (highPrefixCmp pg key)

theorem exists_columnRun (hs : Layout.Sorted .leaf pg) (hc : Columned pg key) :
    ∃ r e, ColumnRun pg key r e := by
  have hstart := findStartPosition_parts hs hc
  obtain ⟨e, hle, hbound, hslots, hloop⟩ := exists_run hs hc hstart
  have hkey := (hc.length key List.mem_cons_self).1
  have hparts := partitionPoint_parts
    (p := fun i => decide (cmpFull (leaf.slotKey pg (pg.slot i)) (buildKey (columnPart key) 0) < 0))
    (n := pg.count) (by simpa using Layout.parts_insert hs (buildKey (columnPart key) 0))
  have hinsert := hparts.unique hstart
  refine ⟨findStartPosition pg key, e, hle, hbound, congrArg Except.ok hinsert, rfl, hslots, ?_,
    fun conflict => ?_⟩
  · -- `Get` starts at the insert position
    have hhits := hloop (buildKey (columnPart key) 0) (by simp) (take_buildKey _ 0)
    rw [← hinsert] at hhits ⊢
    exact congrArg (List.map result) hhits
  · have hhits := hloop key hkey rfl
    simp only [BtreeVarlenLayoutLeaf.checkUnique, if_true, hhits, List.any_map]
    rfl

end BtreeVarlenLayoutLeaf

open BtreeVarlenLayoutLeaf BtreeVarlenLayoutIntermediate in
/-- **The searches of a sorted page**: the positions are counts of slots, an equal key
is found, and in a leaf of columned keys the two comparisons lead to the same run. -/
theorem page_searches (lay : Layout) (pg : BtreePage) (key : Key) (hs : lay.StrictlySorted pg) :
    ((lay = .inter → ∀ o ∈ pg.slots, cmpFull (lay.slotKey pg o) key ≠ 0) →
      lay.findInsertPosition pg key =
        .ok (pg.slots.countP fun o => decide (cmpFull (lay.slotKey pg o) key < 0))) ∧
    (lay = .inter → findChild pg key =
      pg.slots.countP fun o => decide (cmpFull (lay.slotKey pg o) key ≤ 0)) ∧
    (lay = .leaf → ∀ i, i < pg.count → cmpFull (lay.slotKey pg (pg.slot i)) key = 0 →
      findDeletePosition pg key = i) ∧
    (lay = .leaf → Columned pg key → ∃ r e, ColumnRun pg key r e) := by
  have hsorted := hs.sorted
  refine ⟨Layout.findInsertPosition_eq hsorted, ?_, ?_, ?_⟩
  · rintro rfl
    exact findChild_eq hsorted
  · rintro rfl i hi heq
    exact findDeletePosition_eq hsorted hi heq
  · rintro rfl hc
    exact exists_columnRun hsorted hc

/-- A leaf with the columns 1 under two ids and the columns 2 under one. -/
def sampleLeaf : BtreePage :=
  { BtreePage.initHeader 0 1 with
    heapOffset := 8156
    slots := [8180, 8168, 8156]
    heap := (((BtreePage.initHeader 0 1).heap.write 8180
      (toLE 2 9 ++ buildKey [byte 1] 5)).write 8168
      (toLE 2 9 ++ buildKey [byte 1] 7)).write 8156 (toLE 2 9 ++ buildKey [byte 2] 1) }

/-- An inner page with the least separator and one more. -/
def sampleInter : BtreePage :=
  { BtreePage.initHeader 1 2 with
    heapOffset := 8164
    slots := [8184, 8164]
    heap := ((BtreePage.initHeader 1 2).heap.write 8184 (toLE 4 3 ++ toLE 4 0)).write 8164
      (toLE 4 4 ++ toLE 4 9 ++ buildKey [byte 1] 7) }

open BtreeVarlenLayoutLeaf BtreeVarlenLayoutIntermediate in
theorem page_searches_sample :
    Layout.leaf.findInsertPosition sampleLeaf (buildKey [byte 1] 7) = .ok 1 ∧
    Layout.inter.findInsertPosition sampleInter (buildKey [byte 1] 5) = .ok 1 ∧
    findChild sampleInter (buildKey [byte 1] 7) = 2 ∧
    findDeletePosition sampleLeaf (buildKey [byte 1] 7) = 1 ∧
    ∃ r e, ColumnRun sampleLeaf (buildKey [byte 1] 7) r e := by
  have hleaf : Layout.leaf.StrictlySorted sampleLeaf := by
    unfold Layout.StrictlySorted
    decide
  have hinter : Layout.inter.StrictlySorted sampleInter := by
    unfold Layout.StrictlySorted
    decide
  have hcols : Columned sampleLeaf (buildKey [byte 1] 7) := ⟨by decide, by decide⟩
  obtain ⟨hinsert, -, hdelete, hrun⟩ := page_searches .leaf sampleLeaf (buildKey [byte 1] 7) hleaf
  obtain ⟨hinsert', -⟩ := page_searches .inter sampleInter (buildKey [byte 1] 5) hinter
  obtain ⟨-, hchild, -⟩ := page_searches .inter sampleInter (buildKey [byte 1] 7) hinter
  exact ⟨hinsert (fun h => absurd h (by decide)), hinsert' (fun _ => by decide), hchild rfl,
    hdelete rfl 1 (by decide) (by decide), hrun rfl hcols⟩

end Db7
