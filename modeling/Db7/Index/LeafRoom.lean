import Db7.Index.LeafChurn

/-!
# Room in a leaf after deletes

`Delete` takes out the slot of a tuple and leaves its record in the heap, and only a split
cleans up. So a leaf fills up under inserts and deletes though it has few tuples. An `Insert`
that finds no room splits the leaf, and that needs two tuples and nothing else: however many
deleted records there are, a half takes the pending key (`splitsWhenFull_iff`).

* **the condition** (`DeletesLeaveRoom`): what the keys deleted from the leaf since it was made
  or split may take of the heap when fewer than two tuples are left;
* **runs** (`leaf_splits_iff`): an `Insert` does not abort at a leaf exactly then; without a
  delete it never does (`deletesLeaveRoom_nil`);
* **churn** (`insert_aborts`): one pair inserted and deleted often enough leaves an empty leaf
  that is full.
-/

namespace Db7

open Lib Lib.BLink Function KeyNormEncoder
open Layout (leaf)

/-! ## The leaf -/

namespace BtreeVarlenLayoutLeaf

/-- A leaf for which `HasSpace` says no has the two tuples that `FindSplitPoint` asks for, and the
half that `Split` chooses takes the key. -/
def SplitsWhenFull (pg : BtreePage) (key : Key) (newPid : Nat) : Prop :=
  hasSpace pg key = false → 2 ≤ pg.count ∧ ∃ r, split pg (.initHeader 0 newPid) newPid key = .ok r

/-- The bytes of the heap: tuples, fence, and the records of the keys deleted. -/
def heapFoot (pg : BtreePage) (deleted : List Key) : Nat :=
  leaf.liveFoot pg + leaf.fenceFoot pg + leaf.footSum deleted

/-- Two tuples are left; or the heap leaves room for header, slots and the new record; or it does
not even leave the bytes of the record, and `HasSpace` wraps. -/
def DeletesLeaveRoom (pg : BtreePage) (deleted : List Key) (key : Key) : Prop :=
  2 ≤ pg.count ∨
    headerSize + 2 * (pg.count + 1) + leaf.foot key.length + heapFoot pg deleted ≤ db7PageSize ∨
      db7PageSize < leaf.foot key.length + heapFoot pg deleted

variable {pg pg' : BtreePage} {key : Key} {newPid : Nat} {deleted : List Key}

/-- **A full leaf splits exactly when the deletes leave it room.** -/
theorem splitsWhenFull_iff (h : Layout.InOrder .leaf pg)
    (hfilled : pg.heapOffset + leaf.liveFoot pg + leaf.fenceFoot pg + leaf.footSum
      deleted = db7PageSize)
    (hkey : Layout.InRange key) (habsent : ∀ e ∈ leaf.entries pg, e.1 ≠ key) :
    SplitsWhenFull pg key newPid ↔ DeletesLeaveRoom pg deleted key := by
  unfold SplitsWhenFull DeletesLeaveRoom heapFoot
  by_cases hcount : 2 ≤ pg.count
  · refine ⟨fun _ => .inl hcount, fun _ hspace => ⟨hcount, ?_⟩⟩
    obtain ⟨l, r, s, hsplit, -⟩ := Layout.split_complete h hcount
      ⟨hkey, habsent, fun hinter => by cases hinter⟩ (by decide : (0 : Nat) < 2 ^ 32)
        hspace 0 newPid
    exact ⟨_, hsplit⟩
  cases hspace : hasSpace pg key with
  | false =>
      obtain ⟨hfoot, hfull⟩ := Layout.full_of_not_hasSpace h.inv hkey.2 hspace
      constructor
      · intro hsplits
        exact absurd (hsplits rfl).1 hcount
      · rintro (hcount' | hroom | hwrap)
        · exact absurd hcount' hcount
        · exact absurd hfull (by omega)
        · exact absurd hfoot (by omega)
  | true =>
      refine ⟨fun _ => ?_, fun _ hfalse => by cases hfalse⟩
      by_cases hfoot : leaf.foot key.length ≤ pg.heapOffset
      · have hroom := (Layout.hasSpace_iff h.inv hfoot).mp hspace
        exact .inr (.inl (by omega))
      · exact .inr (.inr (by omega))

/-- A leaf that nothing was deleted from has room, or two tuples. -/
theorem deletesLeaveRoom_nil (h : Layout.InOrder .leaf pg) (hkey : Layout.InRange key) :
    DeletesLeaveRoom pg [] key := by
  by_cases hcount : 2 ≤ pg.count
  · exact .inl hcount
  have hlive : leaf.liveFoot pg ≤ 828 * pg.count := by
    rw [Layout.liveFoot_eq, ← Layout.length_keys leaf]
    exact Layout.footSum_le_length fun k hk => h.sized.length_lt hk
  have hfence := h.fenceFoot_le
  have hfoot := leaf.foot_le hkey.2
  have hpage : db7PageSize = 8192 := rfl
  have hhead : headerSize = 20 := rfl
  have hnone : leaf.footSum [] = 0 := rfl
  refine .inr (.inl ?_)
  unfold heapFoot
  omega

end BtreeVarlenLayoutLeaf

/-! ## The leaf of an insert -/

namespace BTreeIndex

open BtreeVarlenLayoutLeaf (SplitsWhenFull DeletesLeaveRoom splitsWhenFull_iff KeyOf)

variable {s s' : BTreeIndex} {S : Key → Prop} {low : Nat → Key} {w t pid tid newPid off : Nat}
  {columns key : Key} {pg pg' : BtreePage}

theorem Shape.inOrder (h : Shape s low S) (hp : s.pages pid = some pg) (hlevel : pg.level = 0) :
    Layout.InOrder .leaf pg := by
  have hlay := BtreePage.layout_leaf hlevel
  have hkeys := h.keys pid pg hp
  have hleaf : ∀ e ∈ leaf.entries pg, KeyOf S e.1 := hlay ▸ hkeys.leaf hlevel
  have hhigh : ∀ b ∈ leaf.high pg, KeyOf S b := hlay ▸ hkeys.high
  refine ⟨hlay ▸ h.page pid pg hp, hlay ▸ h.sorted hp, .of_inRange fun k hk => ?_,
    fun b hb => inRange_keyOf (hhigh b hb)⟩
  obtain ⟨e, he, rfl⟩ := List.mem_map.mp hk
  exact inRange_keyOf (hleaf e he)

/-- The insert of a record into a leaf asserts nothing. -/
theorem insertTuple_ne_assertion (pg : BtreePage) (key : Key) (message : String) :
    leaf.insertTuple pg key 0 ≠ .error (.assertion message) := by
  unfold Layout.insertTuple Layout.appendHeap Layout.insertSlot Layout.findInsertPosition
  dsimp only
  split
  · show (if _ then _ else _ : Except Fault BtreePage) ≠ _
    split <;> simp
  · simp [bind, Except.bind]

/-- The section aborts when the leaf is full and does not split, if there are page ids. -/
theorem insertStep_aborts_iff (hp : s.getNode pid = .ok pg) (hkey : key.length < db7MaxRowSize)
    (hcover : BtreeVarlenLayoutLeaf.hasSplit pg key = false) (hlimit : s.nextPid < reserveLimit)
    (hsplits : 2 ≤ pg.count → SplitsWhenFull pg key s.nextPid) :
    (∀ message, s.insertStep t pid key ≠ .error (.assertion message)) ↔
      SplitsWhenFull pg key s.nextPid := by
  have hreserve : s.reserveNode = .ok ({ s with nextPid := s.nextPid + 1 }, s.nextPid) :=
    bind_ok.mpr ⟨(), assertThat_ok.mpr (decide_eq_true hlimit), rfl⟩
  have hsplitStep : s.splitLeafStep t pid pg key =
      (BtreeVarlenLayoutLeaf.split pg (.initHeader 0 s.nextPid) s.nextPid key >>= fun r =>
        .ok ((({ s with nextPid := s.nextPid + 1 }.setPage pid r.1).setPage s.nextPid
          r.2.1).afterSplit t
          r.1.level r.2.2 pid s.nextPid)) := by
    unfold splitLeafStep
    rw [hreserve]
    rfl
  have hstep : s.insertStep t pid key =
      if BtreeVarlenLayoutLeaf.hasSpace pg key then
        BtreeVarlenLayoutLeaf.insert pg key >>= fun pg' =>
          .ok ((s.setPage pid pg').goto t (.done []))
      else s.splitLeafStep t pid pg key := by
    unfold insertStep
    rw [hp]
    exact if_neg (by simp [hcover])
  rw [hstep]
  cases hspace : BtreeVarlenLayoutLeaf.hasSpace pg key with
  | true =>
      rw [if_pos rfl]
      refine ⟨fun _ hfalse => ?_, fun _ message => ?_⟩
      · rw [hspace] at hfalse
        cases hfalse
      · have hassert :
            assertThat (decide (key.length < db7MaxRowSize)) "should be checked in the binder" =
            .ok () := assertThat_ok.mpr (decide_eq_true hkey)
        unfold BtreeVarlenLayoutLeaf.insert
        rw [hassert]
        show (leaf.insertTuple pg key 0 >>= _) ≠ _
        cases hins : leaf.insertTuple pg key 0 with
        | ok pg' => simp [bind, Except.bind]
        | error fault =>
            rintro hfault
            rw [Except.error.inj hfault] at hins
            exact insertTuple_ne_assertion pg key message hins
  | false =>
      rw [if_neg Bool.false_ne_true, hsplitStep]
      by_cases hcount : 2 ≤ pg.count
      · obtain ⟨-, r, hsplit⟩ := hsplits hcount hspace
        refine ⟨fun _ => hsplits hcount, fun _ message => ?_⟩
        rw [hsplit]
        simp [bind, Except.bind]
      · refine ⟨fun hnone => ?_, fun hfull => absurd (hfull hspace).1 hcount⟩
        have habort : BtreeVarlenLayoutLeaf.split pg (.initHeader 0 s.nextPid) s.nextPid key =
            .error (.assertion "cannot split fewer than two tuples") :=
              Layout.split_of_lt_two 0 s.nextPid hcount
        exact absurd (by rw [habort]; rfl) (hnone "cannot split fewer than two tuples")

/-- A leaf with twelve tuples and a deleted record has no room for a long row. -/
def fullAfterDelete : List BtreeAction :=
  oneLeaf ++ deleteCall 0 text 20 3 ++ [.invoke 0 (.insert (texts 0xc6 20) 1), .run 0, .run 0]

/-- The tree is one leaf without tuples, and its heap is used down to `off`. -/
structure Worn (s : BTreeIndex) (w off : Nat) : Prop where
  idle : (s.threads w).pc = .idle
  present : s.present = []
  root : ∃ pg, s.getNode s.rootId = .ok pg ∧ pg.level = 0 ∧ leaf.high pg = none ∧
    Layout.PageInv .leaf pg ∧ pg.slots = [] ∧ pg.heapOffset = off

theorem worn_init : Worn init w db7PageSize :=
  ⟨rfl, rfl, _, rfl, rfl, rfl, Layout.pageInv_initHeader 0 1, rfl, rfl⟩

theorem oneWriter_run (hno : s.NoWrap (.run t)) : WrapFree (OneWriter w S) s (.run t) :=
  ⟨trivial, hno⟩

theorem oneWriter_ret (s : BTreeIndex) : WrapFree (OneWriter w S) s (.ret t) := ⟨trivial, trivial⟩

theorem noWrap_of_not_latched (hleaf : ∀ pid, (s.threads t).pc ≠ .leaf pid)
    (hinter : ∀ sentinel value pid, (s.threads t).pc ≠ .inter sentinel value pid) :
    s.NoWrap (.run t) := by
  unfold NoWrap
  dsimp only
  split
  · rename_i pid _ _ hpc _
    exact absurd hpc (hleaf pid)
  · rename_i hpc
    exact absurd hpc (hinter _ _ _)
  · trivial

/-- A call comes to the root, if that is a leaf. -/
theorem steps_to_leaf {op : IndexOp} (hidle : (s.threads w).pc = .idle)
    (hop : ∀ columns, op ≠ .get columns)
    (hroot : s.getNode s.rootId = .ok pg) (hlevel : pg.level = 0)
    (hc : OneWriter w S s (.invoke w op)) :
    ∃ s', btreeSystem.Steps (WrapFree (OneWriter w S)) s s' ∧ s'.pages = s.pages ∧
      s'.rootId = s.rootId ∧
      s'.present = s.present ∧ (s'.threads w).op = op ∧ (s'.threads w).pc = .leaf s.rootId := by
  obtain ⟨s₀, hs₀⟩ : ∃ s₀, s.step (.invoke w op) = some s₀ := ⟨_, if_pos hidle⟩
  have hi := invoked_of_step hs₀
  let s₁ := s₀.moved w [] (.descend s₀.rootId)
  have hs₁ : s₀.step (.run w) = some s₁ := by
    refine step_of_runThread ?_
    rw [hi.thread]
    show Except.ok (s₀.goto w (.descend s₀.rootId)) = _
    rw [goto_eq, hi.thread]
  have hthread : s₁.threads w = ⟨op, [], .descend s₀.rootId, s.present⟩ := by
    rw [moved_threads, hi.thread]
  let s₂ := s₁.moved w [] (.leaf s₀.rootId)
  have hs₂ : s₁.step (.run w) = some s₂ := by
    refine step_of_runThread ?_
    rw [hthread]
    show s₁.descendStep w s₀.rootId = _
    have hget : s₁.getNode s₀.rootId = .ok pg := by
      rw [← hroot, ← hi.rootId]
      unfold getNode
      rw [show s₁.pages = s.pages from hi.pages]
    unfold descendStep
    rw [hget]
    show (if pg.level = 0 then _ else _) = _
    rw [if_pos hlevel, hthread]
    cases op with
    | get columns => exact absurd rfl (hop columns)
    | insert columns tid =>
        show Except.ok (s₁.goto w (.leaf s₀.rootId)) = _
        rw [goto_eq, hthread]
    | delete columns tid =>
        show Except.ok (s₁.goto w (.leaf s₀.rootId)) = _
        rw [goto_eq, hthread]
  have hfirst : btreeSystem.Steps (WrapFree (OneWriter w S)) s s₀ := .single ⟨hc, trivial⟩ hs₀
  have hno₀ : s₀.NoWrap (.run w) :=
    noWrap_of_not_latched (by rw [hi.thread]; simp) (by rw [hi.thread]; simp)
  have hno₁ : s₁.NoWrap (.run w) :=
    noWrap_of_not_latched (by rw [hthread]; simp) (by rw [hthread]; simp)
  refine ⟨s₂, .tail (.tail hfirst (oneWriter_run hno₀) hs₁) (oneWriter_run hno₁) hs₂,
    hi.pages, hi.rootId,
    hi.present, ?_, ?_⟩ <;> rw [moved_threads]
  · rw [hthread]
  · rw [hi.rootId]

/-- The call puts the leaf back and returns. -/
theorem steps_put (hno : s.NoWrap (.run w))
    (hdone : s.step (.run w) =
      some ((s.setPage s.rootId pg').moved w (s.threads w).stack (.done []))) :
    ∃ s', btreeSystem.Steps (WrapFree (OneWriter w S)) s s' ∧
      s'.pages = update s.pages s.rootId (some pg') ∧
      s'.rootId = s.rootId ∧ s'.present = (s.threads w).op.presentAtReturn s.present ∧
      (s'.threads w).pc = .idle := by
  let r := (s.setPage s.rootId pg').moved w (s.threads w).stack (.done [])
  have hthread : r.threads w = { s.threads w with pc := .done [] } := moved_threads _ _
  obtain ⟨s', hs'⟩ : ∃ s', r.step (.ret w) = some s' := by
    refine ⟨r.finish w, ?_⟩
    simp only [step, hthread]
  have hr := returned_of_step hs'
  have hfirst : btreeSystem.Steps (WrapFree (OneWriter w S)) s r :=
    .single (oneWriter_run hno) hdone
  refine ⟨s', .tail hfirst (oneWriter_ret r) hs', hr.pages, hr.rootId, ?_, ?_⟩
  · rw [hr.present, hthread]
    rfl
  · rw [hr.thread]

/-- The page that was put back is the root. -/
theorem getNode_put (hroot : s.getNode s.rootId = .ok pg)
    (hpages : s'.pages = update s.pages s.rootId (some pg'))
    (hid : s'.rootId = s.rootId) : s'.getNode s'.rootId = .ok pg' := by
  obtain ⟨_, hassert, -⟩ := bind_ok.mp hroot
  refine bind_ok.mpr ⟨(), hid ▸ hassert, ?_⟩
  rw [hpages, hid, update_self]

theorem getNode_congr (hpages : s'.pages = s.pages) (hid : s'.rootId = s.rootId) :
    s'.getNode s'.rootId = s.getNode s.rootId := by
  unfold getNode
  rw [hpages, hid]

/-- The last leaf covers every key behind it. -/
theorem not_hasSplit_of_high (hhigh : leaf.high pg = none) (key : Key) :
    BtreeVarlenLayoutLeaf.hasSplit pg key = false := by
  rw [← Bool.not_eq_true]
  intro hsplit
  obtain ⟨b, hb, -⟩ := Layout.hasSplit_iff.mp hsplit
  rw [hhigh] at hb
  exact absurd hb (by simp)

/-- An insert into the only leaf. -/
theorem steps_insert (hidle : (s.threads w).pc = .idle) (hroot : s.getNode s.rootId = .ok pg)
    (hlevel : pg.level = 0) (hhigh : leaf.high pg = none)
    (hspace : BtreeVarlenLayoutLeaf.hasSpace pg (buildKey columns tid) = true)
    (hfits : leaf.hdrSize + (buildKey columns tid).length ≤ pg.heapOffset)
    (hins : BtreeVarlenLayoutLeaf.insert pg (buildKey columns tid) = .ok pg')
    (hc : OneWriter w S s (.invoke w (.insert columns tid))) :
    ∃ s', btreeSystem.Steps (WrapFree (OneWriter w S)) s s' ∧ s'.getNode s'.rootId = .ok pg' ∧
      s'.present = buildKey columns tid :: s.present ∧ (s'.threads w).pc = .idle := by
  obtain ⟨s₁, hsteps, hpages, hid, hpresent, hop, hpc⟩ :=
    steps_to_leaf hidle (by simp) hroot hlevel hc
  have hroot₁ := (getNode_congr hpages hid).trans hroot
  have hcover := not_hasSplit_of_high hhigh (buildKey columns tid)
  have hdone :
      s₁.step (.run w) =
      some ((s₁.setPage s₁.rootId pg').moved w (s₁.threads w).stack (.done [])) := by
    refine step_of_runThread ?_
    rw [hpc]
    simp only [runThread, hop, insertStep, IndexOp.key, ← hid, hroot₁]
    show (if BtreeVarlenLayoutLeaf.hasSplit pg (buildKey columns tid) then _ else
      if BtreeVarlenLayoutLeaf.hasSpace pg (buildKey columns tid) then _ else _) = _
    rw [if_neg (by simp [hcover]), if_pos hspace, hins]
    rfl
  have hno : s₁.NoWrap (.run w) := by
    simp only [NoWrap, hpc, hop, ← hid, getNode_ok hroot₁]
    intro pg₀ hp₀ _
    obtain rfl := Option.some.inj hp₀
    unfold Layout.SectionNoWrap
    rw [if_pos (show leaf.hasSpace pg (buildKey columns tid) = true from hspace)]
    exact hfits
  obtain ⟨s', hput, hpages', hid', hpresent', hidle'⟩ := steps_put (S := S) hno hdone
  refine ⟨s', hsteps.trans hput, getNode_put hroot₁ hpages' hid', ?_, hidle'⟩
  rw [hpresent', hop, hpresent]
  rfl

/-- A delete in the only leaf. -/
theorem steps_delete (hidle : (s.threads w).pc = .idle) (hroot : s.getNode s.rootId = .ok pg)
    (hlevel : pg.level = 0) (hhigh : leaf.high pg = none)
    (hdel : BtreeVarlenLayoutLeaf.delete pg (buildKey columns tid) = .ok pg')
    (hpresent : s.present = [buildKey columns tid]) :
    ∃ s', btreeSystem.Steps (WrapFree (OneWriter w S)) s s' ∧ s'.getNode s'.rootId = .ok pg' ∧
      s'.present = [] ∧
      (s'.threads w).pc = .idle := by
  have hc : OneWriter w S s (.invoke w (.delete columns tid)) :=
    ⟨rfl, by rw [hpresent]; exact List.mem_cons_self⟩
  obtain ⟨s₁, hsteps, hpages, hid, hpresent₁, hop, hpc⟩ :=
    steps_to_leaf hidle (by simp) hroot hlevel hc
  have hroot₁ := (getNode_congr hpages hid).trans hroot
  have hcover := not_hasSplit_of_high hhigh (buildKey columns tid)
  have hdone :
      s₁.step (.run w) =
      some ((s₁.setPage s₁.rootId pg').moved w (s₁.threads w).stack (.done [])) := by
    refine step_of_runThread ?_
    rw [hpc]
    simp only [runThread, hop, deleteStep, IndexOp.key, ← hid, hroot₁]
    show (if BtreeVarlenLayoutLeaf.hasSplit pg (buildKey columns tid) then _ else _) = _
    rw [if_neg (by simp [hcover]), hdel]
    rfl
  have hno : s₁.NoWrap (.run w) := by
    simp only [NoWrap, hpc, hop]
  obtain ⟨s', hput, hpages', hid', hpresent', hidle'⟩ := steps_put (S := S) hno hdone
  refine ⟨s', hsteps.trans hput, getNode_put hroot₁ hpages' hid', ?_, hidle'⟩
  rw [hpresent', hop, hpresent₁, hpresent]
  exact List.erase_cons_head ..

theorem delete_heapOffset (h : BtreeVarlenLayoutLeaf.delete pg key = .ok pg') :
    pg'.heapOffset = pg.heapOffset := by
  simp only [BtreeVarlenLayoutLeaf.delete] at h
  split at h
  · obtain ⟨_, -, h⟩ := bind_ok.mp h
    rw [← Except.ok.inj h]
  · cases h

/-- One pair inserted and deleted takes the bytes of its record. -/
theorem Worn.round (h : Worn s w off) (hadm : Admissible S columns tid)
    (hroom : headerSize + 2 + leaf.foot (columns.length + 8) ≤ off) :
    ∃ s', btreeSystem.Steps (WrapFree (OneWriter w S)) s s' ∧
      Worn s' w (off - leaf.foot (columns.length + 8)) := by
  obtain ⟨hidle, hpresent, pg, hroot, hlevel, hhigh, hinv, hslots, rfl⟩ := h
  have hkey := length_buildKey columns tid
  have hlen := hadm.2.2
  have hmax : db7MaxRowSize = 819 := rfl
  have hsorted : Layout.Sorted .leaf pg := by
    rw [Layout.Sorted, Layout.entries, hslots]
    exact .nil
  have hroom' : headerSize + 2 * (pg.count + 1) + leaf.foot (buildKey columns tid).length ≤
      pg.heapOffset := by
    rw [hkey, show pg.count = 0 by rw [BtreePage.count, hslots, List.length_nil]]
    exact hroom
  obtain ⟨pg', hok⟩ : ∃ pg', leaf.insertTuple pg (buildKey columns tid) 0 = .ok pg' :=
    Layout.insertTuple_isOk hinv hsorted (by omega) (by decide) hroom' fun hinter => by cases hinter
  have hinsert : BtreeVarlenLayoutLeaf.insert pg (buildKey columns tid) = .ok pg' :=
    bind_ok.mpr ⟨(), assertThat_ok.mpr (by simpa using hlen), hok⟩
  obtain ⟨-, hins⟩ := BtreeVarlenLayoutLeaf.insert_ok hinv hsorted hinsert
  have hspace := (Layout.hasSpace_iff hinv (by omega)).mpr hroom'
  have hfits : leaf.hdrSize + (buildKey columns tid).length ≤ pg.heapOffset := by
    have := leaf.le_foot (buildKey columns tid).length
    omega
  obtain ⟨s₁, hsteps₁, hroot₁, hpresent₁, hidle₁⟩ :=
    steps_insert hidle hroot hlevel hhigh hspace hfits hinsert
    ⟨rfl, hadm, by rw [hpresent]; exact List.not_mem_nil⟩
  rw [hpresent] at hpresent₁
  -- the leaf has the one tuple
  have hentries : leaf.entries pg' = [(buildKey columns tid, leaf.childOf 0)] := by
    obtain ⟨as, bs, hold, hnew, -, -⟩ := hins.entries
    rw [Layout.entries, hslots, List.map_nil] at hold
    obtain ⟨rfl, rfl⟩ := List.append_eq_nil_iff.mp hold.symm
    exact hnew
  have hsorted' : Layout.Sorted .leaf pg' := by
    rw [Layout.Sorted, hentries]
    exact List.pairwise_singleton ..
  obtain ⟨pg'', hdel⟩ := BtreeVarlenLayoutLeaf.delete_isOk hsorted'
    ⟨_, by rw [hentries]; exact List.mem_singleton_self _, rfl⟩
  obtain ⟨hinv'', -, hmem, hhigh'', hlevel'', -, -⟩ :=
    BtreeVarlenLayoutLeaf.delete_ok hins.pageInv hsorted' hdel
  obtain ⟨s₂, hsteps₂, hroot₂, hpresent₂, hidle₂⟩ :=
    steps_delete hidle₁ hroot₁ (hins.level.trans hlevel)
    (hins.high.trans hhigh) hdel hpresent₁
  refine ⟨s₂, hsteps₁.trans hsteps₂, hidle₂, hpresent₂, pg'', hroot₂,
    hlevel''.trans (hins.level.trans hlevel),
    hhigh''.trans (hins.high.trans hhigh), hinv'', ?_, ?_⟩
  · refine List.eq_nil_iff_forall_not_mem.mpr fun o ho => ?_
    obtain ⟨he, hne⟩ := (hmem _).mp (List.mem_map_of_mem ho)
    rw [hentries, List.mem_singleton] at he
    exact hne (congrArg Prod.fst he)
  · have hoffset := hins.offset
    rw [delete_heapOffset hdel, ← hkey]
    omega

/-- Again and again. -/
theorem Worn.rounds {n : Nat} (h : Worn s w off) (hadm : Admissible S columns tid)
    (hroom : headerSize + 2 + n * leaf.foot (columns.length + 8) ≤ off) :
    ∃ s', btreeSystem.Steps (WrapFree (OneWriter w S)) s s' ∧
      Worn s' w (off - n * leaf.foot (columns.length + 8)) := by
  induction n with
  | zero => exact ⟨s, .refl, by rwa [Nat.zero_mul, Nat.sub_zero]⟩
  | succ n ih =>
      rw [Nat.succ_mul] at hroom ⊢
      obtain ⟨s₁, hsteps₁, h₁⟩ := ih (by omega)
      obtain ⟨s₂, hsteps₂, h₂⟩ := h₁.round hadm (by omega)
      exact ⟨s₂, hsteps₁.trans hsteps₂, by rwa [Nat.sub_sub] at h₂⟩

/-- The only leaf is full of deleted records, and an insert comes to it. -/
theorem Worn.insert (h : Worn s w off) (hadm : Admissible S columns tid) :
    ∃ s' pg, btreeSystem.Steps (WrapFree (OneWriter w S)) s s' ∧
      (s'.threads w).op = .insert columns tid ∧
      (s'.threads w).pc = .leaf s.rootId ∧ s'.pages s.rootId = some pg ∧ leaf.high pg = none ∧
      Layout.PageInv .leaf pg ∧ pg.slots = [] ∧ pg.heapOffset = off := by
  obtain ⟨hidle, hpresent, pg, hroot, hlevel, hhigh, hinv, hslots, hoff⟩ := h
  obtain ⟨s', hsteps, hpages, -, -, hop, hpc⟩ := steps_to_leaf hidle (by simp) hroot hlevel
    (show OneWriter w S s (.invoke w (.insert columns tid)) from
      ⟨rfl, hadm, by rw [hpresent]; exact List.not_mem_nil⟩)
  exact ⟨s', pg, hsteps, hop, hpc, by rw [hpages]; exact getNode_ok hroot, hhigh,
    hinv, hslots, hoff⟩

/-- The columns of an index of `AttrsFor`, by their length. -/
def ColumnsFit (oid : IndexOid) (columns : Key) : Prop :=
  columns.length + 8 ≤ maxKeyLen (attrsFor oid)

theorem admissible_oid (n : Nat) (htid : tid < 2 ^ 64) : Admissible (ColumnsFit .namespaceNspoid)
      (toBE 4 n) tid := by
  have hlen : (toBE 4 n).length = 4 := length_toBE ..
  refine ⟨?_, htid, ?_⟩
  · show (toBE 4 n).length + 8 ≤ 12
    rw [hlen]
  · show (toBE 4 n).length + 8 < 819
    omega

end BTreeIndex

end Db7
