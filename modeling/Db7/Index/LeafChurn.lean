import Db7.Index.NoWrap

/-!
# The records that deletes leave behind

`Delete` takes out the slot of a tuple and leaves its record in the heap; only a split cleans up.
No page says which of its bytes belong to such records. The run does: beside the index, `LeafChurn`
keeps the keys that were deleted from each leaf since it was made or split.

* **the ledger** (`ChurnInv`): the records of the tuples, the fence and the records of the keys
  deleted since then fill the heap of a leaf;
* **every run has one** (`churn_of_reachable`): no step reads it.
-/

namespace Db7

open Lib Lib.BLink Function KeyNormEncoder
open Layout (leaf)

/-- The index, and the keys deleted from each leaf since it was made or split. -/
structure LeafChurn where
  index : BTreeIndex
  deleted : Nat → List Key

namespace Layout

variable {left l r pg pg' : BtreePage} {level newPid child : Nat} {s key : Key} {lay : Layout}

/-- After a split there is nothing in the heaps but tuples and fences. -/
theorem Splits.filled (h : Splits lay left l r level newPid s key child) :
    l.heapOffset + lay.liveFoot l + lay.fenceFoot l = db7PageSize ∧
      r.heapOffset + lay.liveFoot r + lay.fenceFoot r = db7PageSize := by
  obtain ⟨l₀, r₀, n, hh, hcase⟩ := h.halved
  have hleft := hh.leftHalf.filled
  have hright := hh.rightHalf.filled
  rcases hcase with ⟨-, rfl, hins⟩ | ⟨-, rfl, hins⟩ <;>
    have hoffset := hins.offset <;> have hlive := hins.live <;> have hfence := hins.fence <;> omega

/-- The right page has the level that it was made with. -/
theorem Splits.right_level (h : Splits lay left l r level newPid s key child) :
    r.level = level := by
  obtain ⟨l₀, r₀, n, hh, hcase⟩ := h.halved
  rcases hcase with ⟨-, -, hins⟩ | ⟨-, rfl, -⟩
  · exact hins.level.trans hh.rightHalf.level
  · exact hh.rightHalf.level

end Layout

namespace BtreeVarlenLayoutLeaf

variable {pg pg' : BtreePage} {key : Key}

/-- `Delete` leaves the heap as it is, and the record in it. -/
theorem delete_leaves (h : delete pg key = .ok pg') : pg'.heapOffset = pg.heapOffset ∧
    leaf.liveFoot pg' + leaf.foot key.length = leaf.liveFoot pg ∧ leaf.fenceFoot pg' =
      leaf.fenceFoot pg := by
  unfold delete at h
  dsimp only at h
  split at h <;> rename_i hidx
  · generalize findDeletePosition pg key = idx at h hidx
    obtain ⟨_, hassert, h⟩ := bind_ok.mp h
    obtain rfl := Except.ok.inj h
    have hcmp : cmpFull (leaf.slotKey pg (pg.slot idx)) key = 0 := by
      simpa using assertThat_ok.mp hassert
    have hlt : idx < pg.slots.length := hidx
    have hslot : pg.slot idx = pg.slots[idx] := by
      unfold BtreePage.slot
      rw [List.getD_eq_getElem?_getD, List.getElem?_eq_getElem hlt, Option.getD_some]
    have hfoot : leaf.recFoot pg pg.slots[idx] = leaf.foot key.length := by
      rw [← cmpFull_zero.mp hcmp, hslot, Layout.length_slotKey]
      rfl
    refine ⟨rfl, ?_, rfl⟩
    have hperm := (List.getElem_cons_eraseIdx_perm hlt).map (leaf.recFoot pg)
    have hsum := hperm.sum_nat
    rw [List.map_cons, List.sum_cons, hfoot] at hsum
    show ((pg.slots.eraseIdx idx).map (leaf.recFoot pg)).sum + _ = _
    rw [Nat.add_comm]
    exact hsum
  · cases h

end BtreeVarlenLayoutLeaf

namespace BTreeIndex

/-- What a step does to the ledger. -/
def churn (s : BTreeIndex) (deleted : Nat → List Key) : BtreeAction → Nat → List Key
  | .run t =>
      match (s.threads t).pc, (s.threads t).op with
      | .leaf pid, .delete columns tid =>
          if (s.pages pid).any fun pg => BtreeVarlenLayoutLeaf.hasSplit pg (buildKey columns tid)
            then deleted
          else update deleted pid (buildKey columns tid :: deleted pid)
      | .leaf pid, .insert columns tid =>
          if (s.pages pid).any fun pg => BtreeVarlenLayoutLeaf.hasSplit pg (buildKey columns tid) ||
              BtreeVarlenLayoutLeaf.hasSpace pg (buildKey columns tid) then deleted
          else update deleted pid []
      | _, _ => deleted
  | _ => deleted

end BTreeIndex

/-- The index with its ledger. -/
def churnSystem : TSys LeafChurn BtreeAction where
  init c := c = ⟨.init, fun _ => []⟩
  step c a := (c.index.step a).map fun s' => ⟨s', c.index.churn c.deleted a⟩

/-- A condition on the steps of the index, for the index with its ledger. -/
def LeafChurn.OnIndex (C : BTreeIndex → BtreeAction → Prop) (c : LeafChurn) (a : BtreeAction) :
    Prop := C c.index a

instance (C : BTreeIndex → BtreeAction → Prop) [∀ s a, Decidable (C s a)] (c : LeafChurn)
    (a : BtreeAction) :
    Decidable (c.OnIndex C a) :=
  inferInstanceAs (Decidable (C c.index a))

namespace LeafChurn

variable {C : BTreeIndex → BtreeAction → Prop} {c c' : LeafChurn} {a : BtreeAction}

theorem of_step (hs : churnSystem.step c a = some c') :
    c.index.step a = some c'.index ∧ c'.deleted = c.index.churn c.deleted a := by
  obtain ⟨s', hs', rfl⟩ := Option.map_eq_some_iff.mp hs
  exact ⟨hs', rfl⟩

/-- The index runs as it does without a ledger. -/
theorem index_reachable (h : churnSystem.ReachableBy (OnIndex C) c) :
    btreeSystem.ReachableBy C c.index := by
  refine h.invariant (P := fun c => btreeSystem.ReachableBy C c.index) ?_ ?_
  · rintro c rfl
    exact ⟨_, rfl, .refl⟩
  · intro c a c' hr hc hs
    exact hr.steps (.single hc (of_step hs).1)

/-- Every run has a ledger. -/
theorem churn_of_reachable {s : BTreeIndex} (h : btreeSystem.ReachableBy C s) :
    ∃ deleted, churnSystem.ReachableBy (OnIndex C) ⟨s, deleted⟩ := by
  refine h.invariant (P := fun s => ∃ deleted, churnSystem.ReachableBy (OnIndex C) ⟨s, deleted⟩) ?_
    ?_
  · rintro s rfl
    exact ⟨_, _, rfl, .refl⟩
  · rintro s a s' ⟨deleted, hr⟩ hc hs
    refine ⟨s.churn deleted a, hr.steps (.single hc ?_)⟩
    show (s.step a).map _ = _
    rw [show s.step a = some s' from hs]
    rfl

end LeafChurn

namespace BTreeIndex

/-- Tuples, fence, and the keys deleted fill the heap of each leaf. A page that is not there has no
deleted keys. -/
structure Filled (s : BTreeIndex) (deleted : Nat → List Key) : Prop where
  leaf : ∀ pid pg, s.pages pid = some pg → pg.level = 0 →
    pg.heapOffset + Layout.leaf.liveFoot pg + Layout.leaf.fenceFoot pg + Layout.leaf.footSum
      (deleted pid) =
      db7PageSize
  fresh : ∀ pid, s.pages pid = none → deleted pid = []

section Filled

variable {s s' : BTreeIndex} {deleted deleted' : Nat → List Key} {low : Nat → Key} {S : Key → Prop}
  {w t pid : Nat} {pg pg' l r : BtreePage} {key : Key}

theorem Filled.congr (h : Filled s deleted) (hpages : s'.pages = s.pages) : Filled s' deleted :=
  ⟨fun pid pg hp => h.leaf pid pg (hpages ▸ hp), fun pid hp => h.fresh pid (hpages ▸ hp)⟩

theorem filled_init : Filled init fun _ => [] := by
  refine ⟨fun pid pg hp _ => ?_, fun _ _ => rfl⟩
  by_cases hpid : pid = 1
  · subst hpid
    simp only [init, update_self, Option.some.injEq] at hp
    subst hp
    rfl
  · simp [init, hpid] at hp

/-- A page is put back. -/
theorem Filled.setPage (h : Filled s deleted) (hp : s.pages pid = some pg)
    (hleaf : pg'.level = 0 → pg'.heapOffset + Layout.leaf.liveFoot pg' + Layout.leaf.fenceFoot pg' +
      Layout.leaf.footSum (deleted' pid) = db7PageSize)
    (hothers : ∀ p, p ≠ pid → deleted' p = deleted p) : Filled (s.setPage pid pg') deleted' := by
  refine ⟨fun p q hq hlevel => ?_, fun p hq => ?_⟩ <;> by_cases hpp : p = pid
  · subst hpp
    simp only [BTreeIndex.setPage, update_self, Option.some.injEq] at hq
    subst hq
    exact hleaf hlevel
  · rw [hothers p hpp]
    simp only [BTreeIndex.setPage, update_of_ne hpp] at hq
    exact h.leaf p q hq hlevel
  · subst hpp
    simp [BTreeIndex.setPage] at hq
  · rw [hothers p hpp]
    simp only [BTreeIndex.setPage, update_of_ne hpp] at hq
    exact h.fresh p hq

/-- A page is split. -/
theorem Filled.splitPages (h : Filled s deleted) (hshape : Shape s low S)
    (hp : s.pages pid = some pg)
    (hleft : l.level = 0 → l.heapOffset + Layout.leaf.liveFoot l + Layout.leaf.fenceFoot l +
      Layout.leaf.footSum (deleted' pid) = db7PageSize)
    (hright : r.level = 0 → r.heapOffset + Layout.leaf.liveFoot r + Layout.leaf.fenceFoot
      r = db7PageSize)
    (hothers : ∀ p, p ≠ pid → deleted' p = deleted p) : Filled (s.splitPages pid l r) deleted' := by
  obtain ⟨hpl, hpr, hrest⟩ := splitPages_pages (l := l) (r := r) hp hshape
  have hne : s.nextPid ≠ pid := by
    have := (hshape.pid _ pg hp).2
    omega
  have hnone : deleted' s.nextPid = [] := by rw [hothers _ hne, h.fresh _ hshape.fresh]
  refine ⟨fun p q hq hlevel => ?_, fun p hq => ?_⟩ <;> by_cases hpp : p = pid
  · subst hpp
    obtain rfl := Option.some.inj (hpl.symm.trans hq)
    exact hleft hlevel
  · by_cases hpn : p = s.nextPid
    · subst hpn
      obtain rfl := Option.some.inj (hpr.symm.trans hq)
      rw [hnone]
      exact hright hlevel
    · rw [hothers p hpp]
      rw [hrest p hpp hpn] at hq
      exact h.leaf p q hq hlevel
  · subst hpp
    rw [hpl] at hq
    cases hq
  · by_cases hpn : p = s.nextPid
    · rw [hpn]
      exact hnone
    · rw [hothers p hpp]
      rw [hrest p hpp hpn] at hq
      exact h.fresh p hq

/-- A root is made; it is no leaf. -/
theorem Filled.rooted (h : Filled s deleted) (hfresh : s.pages s.nextPid = none)
    (hlevel : pg.level ≠ 0) :
    Filled (s.rooted pg) deleted := by
  refine ⟨fun p q hq hzero => ?_, fun p hq => ?_⟩ <;> by_cases hpp : p = s.nextPid
  · subst hpp
    simp only [BTreeIndex.rooted, BTreeIndex.setPage, update_self, Option.some.injEq] at hq
    subst hq
    exact absurd hzero hlevel
  · simp only [BTreeIndex.rooted, BTreeIndex.setPage, update_of_ne hpp] at hq
    exact h.leaf p q hq hzero
  · rw [hpp]
    exact h.fresh _ hfresh
  · simp only [BTreeIndex.rooted, BTreeIndex.setPage, update_of_ne hpp] at hq
    exact h.fresh p hq

theorem churn_of_not_leaf (hpc : ∀ pid, (s.threads t).pc ≠ .leaf pid) :
    s.churn deleted (.run t) = deleted := by
  unfold churn
  dsimp only
  split
  · rename_i pid _ _ hleaf _
    exact absurd hleaf (hpc pid)
  · rename_i pid _ _ hleaf _
    exact absurd hleaf (hpc pid)
  · rfl

theorem afterSplit_pages (s : BTreeIndex) (t level pid newPid : Nat) (sentinel : Key) :
    (s.afterSplit t level sentinel pid newPid).pages = s.pages := by
  rcases afterSplit_eq s t level pid newPid sentinel with ⟨pc, heq, -⟩ | ⟨top, rest, -, heq⟩ <;>
    rw [heq] <;> rfl

/-- The leaf section of an insert. -/
theorem Filled.insertStep (h : Filled s deleted) (hshape : Shape s low S)
    {columns : Key} {tid : Nat}
    (hpc : (s.threads t).pc = .leaf pid) (hop : (s.threads t).op = .insert columns tid)
    (hp : s.pages pid = some pg) (hlevel : pg.level = 0)
    (hkey : (buildKey columns tid).length < 2 ^ 16)
    (hs : s.insertStep t pid (buildKey columns tid) = .ok s') :
    Filled s' (s.churn deleted (.run t)) := by
  have hlay := BtreePage.layout_leaf hlevel
  have hpage : Layout.PageInv .leaf pg := hlay ▸ hshape.page pid pg hp
  have hsorted : Layout.Sorted .leaf pg := hlay ▸ hshape.sorted hp
  have hchurn : s.churn deleted (.run t) =
      if BtreeVarlenLayoutLeaf.hasSplit pg (buildKey columns tid) ||
          BtreeVarlenLayoutLeaf.hasSpace pg (buildKey columns tid) then deleted
      else update deleted pid [] := by
    simp only [churn, hpc, hop, hp, Option.any_some]
  rw [hchurn]
  obtain ⟨pg₀, hp₀, hcase⟩ := insertStep_cases hs
  obtain rfl := Option.some.inj (hp.symm.trans hp₀)
  rcases hcase with ⟨hsplit, rfl⟩ | ⟨-, hspace, pg', hins, rfl⟩ | ⟨hsplit, hspace, -, l, r,
    sentinel, hsplits, rfl⟩
  · rw [hsplit, Bool.true_or, if_pos rfl]
    exact h.congr rfl
  · rw [hspace, Bool.or_true, if_pos rfl]
    obtain ⟨-, hins⟩ := BtreeVarlenLayoutLeaf.insert_ok hpage hsorted hins
    refine (h.setPage hp (fun _ => ?_) fun _ _ => rfl).congr rfl
    have hfilled := h.leaf pid pg hp hlevel
    have hoffset := hins.offset
    have hlive := hins.live
    have hfence := hins.fence
    omega
  · rw [Bool.eq_false_iff.mpr hsplit, Bool.eq_false_iff.mpr hspace, Bool.or_false,
      if_neg Bool.false_ne_true]
    obtain ⟨hl, hr⟩ := (Layout.split_ok hpage hsorted hkey (by decide) hsplits).filled
    refine (h.splitPages hshape hp (fun _ => ?_) (fun _ => hr) fun p hne =>
      update_of_ne hne _ _).congr
      (afterSplit_pages ..)
    rw [update_self]
    exact hl

/-- The leaf section of a delete. -/
theorem Filled.deleteStep (h : Filled s deleted) {columns : Key} {tid : Nat}
    (hpc : (s.threads t).pc = .leaf pid) (hop : (s.threads t).op = .delete columns tid)
    (hp : s.pages pid = some pg) (hlevel : pg.level = 0)
    (hs : s.deleteStep t pid (buildKey columns tid) = .ok s') :
    Filled s' (s.churn deleted (.run t)) := by
  have hchurn : s.churn deleted (.run t) =
      if BtreeVarlenLayoutLeaf.hasSplit pg (buildKey columns tid) then deleted
      else update deleted pid (buildKey columns tid :: deleted pid) := by
    simp only [churn, hpc, hop, hp, Option.any_some]
  rw [hchurn]
  obtain ⟨pg₀, hp₀, hcase⟩ := deleteStep_cases hs
  obtain rfl := Option.some.inj (hp.symm.trans hp₀)
  rcases hcase with ⟨hsplit, rfl⟩ | ⟨hsplit, pg', hdel, rfl⟩
  · rw [if_pos hsplit]
    exact h.congr rfl
  · rw [if_neg hsplit]
    refine (h.setPage hp (fun _ => ?_) fun p hne => update_of_ne hne _ _).congr rfl
    obtain ⟨hoffset, hlive, hfence⟩ := BtreeVarlenLayoutLeaf.delete_leaves hdel
    have hfilled := h.leaf pid pg hp hlevel
    rw [update_self, Layout.footSum_cons]
    omega

/-- A step of a thread. -/
theorem Filled.run (h : Filled s deleted) (hsound : Sound s low S) (hcall : CallOk s S t)
    (hs : s.runThread t (s.threads t).pc = .ok s') : Filled s' (s.churn deleted (.run t)) := by
  have hok := hsound.pcOk t
  have hshape := hsound.shape
  by_cases hleaf : ∃ pid, (s.threads t).pc = .leaf pid
  · obtain ⟨pid, hpc⟩ := hleaf
    simp only [PcOk, hpc] at hok
    obtain ⟨pg, hp, hlevel, -⟩ := page_of_at hok.1
    rw [hpc] at hs
    unfold runThread at hs
    cases hop : (s.threads t).op with
    | insert columns tid =>
        simp only [hop] at hs
        have hkey := length_lt_of_keyOf (hcall columns tid hop (by rw [hpc]; rfl)).1
        exact h.insertStep hshape hpc hop hp hlevel hkey hs
    | delete columns tid =>
        simp only [hop] at hs
        exact h.deleteStep hpc hop hp hlevel hs
    | get columns => simp [hop] at hs
  rw [churn_of_not_leaf fun pid hpc => hleaf ⟨pid, hpc⟩]
  cases hpc : (s.threads t).pc with
  | idle => simp [hpc, runThread] at hs
  | done => simp [hpc, runThread] at hs
  | leaf pid => exact absurd ⟨pid, hpc⟩ hleaf
  | loadRoot =>
      rw [hpc] at hs
      obtain rfl := Except.ok.inj hs
      exact h.congr rfl
  | descend pid =>
      rw [hpc] at hs
      obtain ⟨pg, -, hcase⟩ := descendStep_cases hs
      rcases hcase with ⟨-, _, -, rfl⟩ | ⟨-, -, rfl⟩ | ⟨-, -, rfl⟩ | ⟨-, child, -, rfl⟩ <;>
        exact h.congr rfl
  | root level sentinel pid newPid =>
      rw [hpc] at hs
      rcases rootStep_cases hs with ⟨-, -, root, hcreate, rfl⟩ | ⟨-, rfl⟩
      · simp only [PcOk, hpc] at hok
        obtain ⟨-, ⟨n, hn, -⟩, ⟨m, hm, -⟩, hkey, hpos⟩ := hok
        obtain ⟨lpg, hl, -⟩ := pages_of_tree hn
        obtain ⟨rpg, hr, -⟩ := pages_of_tree hm
        obtain ⟨-, -, -, hlevel, -⟩ :=
          BtreeVarlenLayoutIntermediate.createRoot_ok (length_lt_of_keyOf hkey)
          (by rintro rfl; exact absurd hpos (lt_irrefl _)) (hshape.lt_undefined hl).2
            (hshape.lt_undefined hr).2
          hcreate
        exact (h.rooted hshape.fresh (by omega)).congr rfl
      · exact h.congr rfl
  | reloadRoot dropLevel sentinel newPid =>
      rw [hpc] at hs
      obtain ⟨pg, -, rfl⟩ := reloadRootStep_cases hs
      exact h.congr rfl
  | redescend dropLevel sentinel newPid pid level =>
      rw [hpc] at hs
      obtain ⟨pg, -, -, hcase⟩ := redescendStep_cases hs
      rcases hcase with ⟨-, rfl⟩ | ⟨-, -, rfl⟩ | ⟨-, child, -, rfl⟩ <;> exact h.congr rfl
  | inter sentinel value pid =>
      rw [hpc] at hs
      simp only [PcOk, hpc] at hok
      obtain ⟨hkey, l, ⟨m, hm, -⟩, hat, -⟩ := hok
      obtain ⟨vpg, hv, -⟩ := pages_of_tree hm
      obtain ⟨pg, hp, hlevel, -⟩ := page_of_at hat
      have hlay : pg.layout = .inter := BtreePage.layout_inter (by omega)
      have hpage : Layout.PageInv .inter pg := hlay ▸ hshape.page pid pg hp
      have hsorted : Layout.Sorted .inter pg := hlay ▸ hshape.sorted hp
      have hvalue := (hshape.lt_undefined hv).2
      obtain ⟨pg₀, hp₀, hcase⟩ := interStep_cases hs
      obtain rfl := Option.some.inj (hp.symm.trans hp₀)
      rcases hcase with ⟨-, rfl⟩ | ⟨-, -, pg', hins, rfl⟩ | ⟨-, -, -, lpg, rpg,
        sentinel', hsplits, rfl⟩
      · exact h.congr rfl
      · have hins := BtreeVarlenLayoutIntermediate.insert_ok hpage hsorted hvalue hins
        exact (h.setPage hp (fun hzero => absurd (hins.level.symm.trans hzero) (by omega))
          fun _ _ => rfl).congr rfl
      · have hsp := Layout.split_ok hpage hsorted (length_lt_of_keyOf hkey) hvalue hsplits
        exact (h.splitPages hshape hp (fun hzero => absurd (hsp.level.symm.trans hzero) (by omega))
          (fun hzero => absurd (hsp.right_level.symm.trans hzero) (by omega)) fun _ _ => rfl).congr
          (afterSplit_pages ..)
  | scan pid results =>
      rw [hpc] at hs
      obtain ⟨pg, -, hcase⟩ := scanStep_cases hs
      rcases hcase with ⟨-, rfl⟩ | ⟨-, -, rfl⟩ | ⟨-, -, rfl⟩ <;> exact h.congr rfl
  | follow pid results =>
      rw [hpc] at hs
      obtain ⟨pg, -, hcase⟩ := followStep_cases hs
      rcases hcase with ⟨-, rfl⟩ | ⟨-, rfl⟩ <;> exact h.congr rfl

end Filled

end BTreeIndex

namespace LeafChurn

variable {c : LeafChurn} {S : Key → Prop} {w : Nat}

/-- The heap of every leaf is accounted for. -/
theorem filled_reachable (h : churnSystem.ReachableBy (OnIndex (BTreeIndex.OneWriter w S)) c) :
    ∃ low, c.index.WriterInv w low S ∧ c.index.Filled c.deleted := by
  refine h.invariant
    (P := fun c => ∃ low, c.index.WriterInv w low S ∧ c.index.Filled c.deleted) ?_ ?_
  · rintro c rfl
    exact ⟨_, BTreeIndex.writerInv_init w, BTreeIndex.filled_init⟩
  · rintro c a c' ⟨low, hw, hf⟩ hc hst
    obtain ⟨hs, hdeleted⟩ := of_step hst
    rw [hdeleted]
    cases a with
    | invoke t op => exact ⟨low, hw.invoke hc hs, hf.congr (BTreeIndex.invoked_of_step hs).pages⟩
    | run t =>
        have hf' := hf.run hw.sound (hw.callOk t) (BTreeIndex.runThread_of_step hs)
        obtain ⟨low', -, hw'⟩ := hw.run hs
        exact ⟨low', hw', hf'⟩
    | ret t => exact ⟨low, hw.ret hs, hf.congr (BTreeIndex.returned_of_step hs).pages⟩

end LeafChurn

end Db7
