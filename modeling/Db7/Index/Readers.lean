import Db7.Index.NoWrap

/-!
# Lookups beside one inserting thread

A `Get` holds no latch between its page reads, and reads the right link of a
leaf after it has validated the leaf's slots. While it walks, the writer may
split any page.

* **get_finds_returned**: a `Get` misses no id whose insert had returned before
  it started, if no columns are a proper prefix of others. Pages keep their low
  fence and fences only move left, so nothing gets left of a walker;
* **get_nodup**: no id comes twice as long as no split between the two reads of a
  leaf has moved a key that was already taken;
* **get_misses_returned**, **get_returns_twice**: runs on which the conditions
  fail, and with them the claims.
-/

namespace Db7

open Lib Lib.BLink Function KeyNormEncoder
open BtreeVarlenLayoutLeaf (KeyOf)

namespace BTreeIndex

/-- Thread `w` inserts new pairs; everybody looks up. -/
def OneInserter (w : Nat) (S : Key → Prop) (s : BTreeIndex) : BtreeAction → Prop
  | .invoke _ (.delete ..) => False
  | a => OneWriter w S s a

instance (w : Nat) (S : Key → Prop) [DecidablePred S] (s : BTreeIndex) (a : BtreeAction) :
    Decidable (OneInserter w S s a) :=
  match a with
  | .invoke _ (.delete ..) => inferInstanceAs (Decidable False)
  | .invoke t (.insert columns tid) =>
      inferInstanceAs (Decidable (OneWriter w S s (.invoke t (.insert columns tid))))
  | .invoke t (.get columns) =>
      inferInstanceAs (Decidable (OneWriter w S s (.invoke t (.get columns))))
  | .run t => inferInstanceAs (Decidable (OneWriter w S s (.run t)))
  | .ret t => inferInstanceAs (Decidable (OneWriter w S s (.ret t)))

theorem OneInserter.oneWriter {w : Nat} {S : Key → Prop} {s : BTreeIndex} {a : BtreeAction}
    (h : OneInserter w S s a) : OneWriter w S s a := by
  unfold OneInserter at h
  split at h
  · exact h.elim
  · exact h

/-! ## Nothing is missed -/

/-- A `Get` has not passed a key that was there when it started. -/
def Complete (t : LinkTree Key) (low : Nat → Key) (th : BtreeThread) : Prop :=
  ∀ columns, th.op = .get columns → th.pc ≠ .idle → (∀ k ∈ th.before, t.HasKey k) ∧
    match th.pc with
    | .scan pid results => Ahead (· ∈ th.before) columns results (low pid)
    | .follow pid results =>
        ∀ n, t.nodes pid = some n → ∀ b ∈ n.high, Ahead (· ∈ th.before) columns results b
    | .done results => ∀ u, u < 2 ^ 64 → buildKey columns u ∈ th.before → u ∈ results
    | _ => True

section Complete

variable {s s' : BTreeIndex} {low low' : Nat → Key} {S : Key → Prop} {w t u : Nat}

/-- What others do does not bring a key left of the reader. -/
theorem Complete.grows {tr tr' : LinkTree Key} (hg : LinkTree.Grows tr tr' low low')
    (hkeys : ∀ k, tr.HasKey k → tr'.HasKey k) {th : BtreeThread} (hok : PcOk tr low S th)
    (h : Complete tr low th) : Complete tr' low' th := by
  intro columns hop hne
  obtain ⟨hbefore, hplace⟩ := h columns hop hne
  refine ⟨fun k hk => hkeys k (hbefore k hk), ?_⟩
  cases hpc : th.pc with
  | scan pid results =>
      simp only [PcOk, hpc] at hok hplace ⊢
      obtain ⟨-, n, hn, -⟩ := hok
      rwa [hg.low pid n hn]
  | follow pid results =>
      simp only [PcOk, hpc] at hok hplace ⊢
      obtain ⟨-, n, hn, -, b₀, hb₀⟩ := hok
      intro n' hn' b hb
      obtain ⟨n'', hn'', -, hhigh⟩ := hg.node pid n hn
      obtain rfl := Option.some.inj (hn'.symm.trans hn'')
      obtain ⟨b', hb', hle⟩ := hhigh b₀ hb₀
      obtain rfl := Option.some.inj (hb.symm.trans hb')
      exact (hplace n hn b₀ hb₀).mono hle
  | done results =>
      simp only [hpc] at hplace
      exact hplace
  | _ => trivial

/-- A step of the reader. -/
theorem Complete.run (h : Shape s low S) (hS : PrefixFree S) {columns : Key} (hcol : S columns)
    (hop : (s.threads t).op = .get columns) (hread : (s.threads t).pc.reading = true)
    (hok : PcOk s.tree low S (s.threads t)) (hc : Complete s.tree low (s.threads t))
    (hs : s.runThread t (s.threads t).pc = .ok s') : Complete s'.tree low (s'.threads t) := by
  have hkey : (s.threads t).op.key = buildKey columns 0 := by rw [hop]; rfl
  cases hpc : (s.threads t).pc with
  | idle => simp [hpc, runThread] at hs
  | done => simp [hpc, runThread] at hs
  | loadRoot =>
      rw [hpc] at hs
      obtain ⟨hbefore, -⟩ := hc columns hop (by simp [hpc])
      obtain rfl := Except.ok.inj hs
      rw [goto_eq, moved_threads]
      exact fun _ _ _ => ⟨hbefore, trivial⟩
  | descend pid =>
      rw [hpc] at hs
      simp only [PcOk, hpc] at hok
      obtain ⟨level, hat, -⟩ := hok
      obtain ⟨hbefore, -⟩ := hc columns hop (by simp [hpc])
      obtain ⟨pg, hp, hcase⟩ := descendStep_cases hs
      rcases hcase with ⟨-, _, -, rfl⟩ | ⟨-, hnot, -⟩ | ⟨-, -, rfl⟩ | ⟨-, child, -, rfl⟩
      · -- the leaf starts at or left of the columns
        obtain ⟨-, -, -, hlow⟩ := page_of_at hat
        rw [hkey] at hlow
        rw [moved_threads]
        intro columns' hop' _
        obtain rfl : columns = columns' := by simpa [hop] using hop'
        exact ⟨hbefore, .of_le hlow⟩
      · exact absurd hop (hnot columns)
      · rw [moved_threads]
        exact fun _ _ _ => ⟨hbefore, trivial⟩
      · rw [moved_threads]
        exact fun _ _ _ => ⟨hbefore, trivial⟩
  | scan pid results =>
      rw [hpc] at hs
      simp only [PcOk, hpc] at hok
      obtain ⟨-, n, hn, hlevel⟩ := hok
      obtain ⟨hbefore, hahead⟩ := hc columns hop (by simp [hpc])
      simp only [hpc] at hahead
      obtain ⟨pg, hp, hcase⟩ := scanStep_cases hs
      obtain rfl := Option.some.inj ((tree_nodes hp).symm.trans hn)
      have hlay := BtreePage.layout_leaf hlevel
      rw [hkey] at hcase
      rcases hcase with ⟨hsplit, rfl⟩ | ⟨hsplit, -, rfl⟩ | ⟨hsplit, hproceed, rfl⟩ <;>
        rw [moved_threads] <;> intro columns' hop' _ <;>
        obtain rfl : columns = columns' := by simpa [hop] using hop'
      · obtain ⟨b, hb, hle⟩ := Layout.hasSplit_iff.mp hsplit
        rw [← hlay] at hb
        obtain ⟨-, hlowr, -⟩ := h.inv.at_right (tree_nodes hp) hb hle
        have hlowr' : low pg.rlink = b := hlowr
        exact ⟨hbefore, .of_le (hlowr' ▸ hle)⟩
      · refine ⟨hbefore, fun n' hn' b hb u hu hk => ?_⟩
        obtain rfl := Option.some.inj (hn'.symm.trans (tree_nodes hp))
        refine (hahead.leaf h hS hcol hp hlevel hbefore hu hk).imp_right ?_
        rintro ⟨b', hb', hle⟩
        obtain rfl := Option.some.inj (hb.symm.trans hb')
        exact hle
      · exact ⟨hbefore, fun u hu hk => hahead.last h hS hcol hp hlevel hbefore hsplit
          hproceed hu hk⟩
  | follow pid results =>
      rw [hpc] at hs
      simp only [PcOk, hpc] at hok
      obtain ⟨-, n, hn, -, b, hb⟩ := hok
      obtain ⟨hbefore, hahead⟩ := hc columns hop (by simp [hpc])
      simp only [hpc] at hahead
      obtain ⟨pg, hp, hcase⟩ := followStep_cases hs
      obtain rfl := Option.some.inj ((tree_nodes hp).symm.trans hn)
      obtain ⟨hat, hlowr, -⟩ := h.inv.at_right (tree_nodes hp) hb le_rfl
      obtain ⟨rpg, hrp, -, -⟩ := page_of_at hat
      rcases hcase with ⟨hnone, rfl⟩ | ⟨-, rfl⟩
      · exact absurd hnone (h.lt_undefined hrp).1
      · rw [moved_threads]
        intro columns' hop' _
        obtain rfl : columns = columns' := by simpa [hop] using hop'
        have hlowr' : low pg.rlink = b := hlowr
        exact ⟨hbefore, by show Ahead _ _ _ (low pg.rlink); rw [hlowr']; exact hahead _ hn b hb⟩
  | leaf pid => simp [hpc, BtreePc.reading] at hread
  | root level sentinel pid newPid => simp [hpc, BtreePc.reading] at hread
  | reloadRoot dropLevel sentinel newPid => simp [hpc, BtreePc.reading] at hread
  | redescend dropLevel sentinel newPid pid level => simp [hpc, BtreePc.reading] at hread
  | inter sentinel value pid => simp [hpc, BtreePc.reading] at hread

end Complete

/-- In every state that the readers and the inserting thread `w` reach. -/
structure ReadersInv (s : BTreeIndex) (w : Nat) (low : Nat → Key) (S : Key → Prop) : Prop where
  writer : WriterInv s w low S
  complete : ∀ t, Complete s.tree low (s.threads t)
  noDelete : ∀ t columns tid, (s.threads t).op = .delete columns tid → (s.threads t).pc = .idle

section Readers

variable {s s' : BTreeIndex} {low low' : Nat → Key} {S : Key → Prop} {w t : Nat}

theorem readersInv_init (w : Nat) : ReadersInv init w (fun _ => []) S where
  writer := writerInv_init w
  complete _ _ _ hne := absurd rfl hne
  noDelete _ _ _ _ := rfl

/-- What an insert has brought is in the leaves. -/
theorem ReadersInv.hasKey_of_present (h : ReadersInv s w low S) {k : Key} (hk : k ∈ s.present) :
    s.tree.HasKey k := by
  refine (h.writer.keys k).mpr ?_
  unfold current
  split
  · exact hk
  · rename_i hpc
    cases hop : (s.threads w).op with
    | insert columns tid => exact List.mem_cons_of_mem _ hk
    | get columns => exact hk
    | delete columns tid => exact absurd (.inr (h.noDelete w columns tid hop)) hpc

/-- Without deletes no key leaves. -/
theorem Effect.hasKey_mono (he : Effect s s' low low' S t)
    (hdelete : ∀ columns tid, (s.threads t).op ≠ .delete columns tid) (k : Key)
    (hk : s.tree.HasKey k) : s'.tree.HasKey k := by
  rcases he.keys with ⟨-, hsame⟩ | ⟨-, -, hplaced⟩
  · exact (hsame k).mpr hk
  · cases hop : (s.threads t).op with
    | insert columns tid =>
        rw [hop] at hplaced
        exact (hplaced k).mpr (.inl hk)
    | delete columns tid => exact absurd hop (hdelete columns tid)
    | get columns =>
        rw [hop] at hplaced
        exact hplaced.elim

theorem ReadersInv.invoke (h : ReadersInv s w low S) {op : IndexOp}
    (hc : OneInserter w S s (.invoke t op)) (hs : s.step (.invoke t op) = some s') :
    ReadersInv s' w low S := by
  have hi := invoked_of_step hs
  refine ⟨h.writer.invoke hc.oneWriter hs, fun u => ?_, fun u columns tid hop => ?_⟩
  · rw [hi.tree]
    by_cases hu : u = t
    · -- the new call counts on what is present now
      rw [hu, hi.thread]
      exact fun _ _ _ => ⟨fun k hk => h.hasKey_of_present hk, trivial⟩
    · rw [hi.others u hu]
      exact h.complete u
  · by_cases hu : u = t
    · subst hu
      rw [hi.thread] at hop
      subst hop
      exact hc.elim
    · rw [hi.others u hu] at hop ⊢
      exact h.noDelete u columns tid hop

theorem ReadersInv.run (hS : PrefixFree S) (h : ReadersInv s w low S)
    (hs : s.step (.run t) = some s') : ∃ low', ReadersInv s' w low' S := by
  have hne := running_of_step hs
  have hnoDelete : ∀ {low'}, Effect s s' low low' S t → ∀ u columns tid,
      (s'.threads u).op = .delete columns tid → (s'.threads u).pc = .idle := by
    intro low' he u columns tid hop
    by_cases hu : u = t
    · subst hu
      rw [he.op] at hop
      exact absurd (h.noDelete u columns tid hop) hne
    · rw [he.others u hu] at hop ⊢
      exact h.noDelete u columns tid hop
  have hothers : ∀ {low'}, Effect s s' low low' S t → ∀ u, u ≠ t →
      Complete s'.tree low' (s'.threads u) := by
    intro low' he u hu
    rw [he.others u hu]
    exact (h.complete u).grows he.grows
      (he.hasKey_mono fun columns tid hop => hne (h.noDelete t columns tid hop))
      (h.writer.sound.pcOk u)
  by_cases hget : ∃ columns, (s.threads t).op = .get columns
  · obtain ⟨columns, hop⟩ := hget
    have he := h.writer.effect_read hop hs
    obtain ⟨hread, hcol⟩ := h.writer.reading t columns hop
    refine ⟨low, h.writer.of_effect he hs, fun u => ?_, hnoDelete he⟩
    by_cases hu : u = t
    · subst hu
      exact Complete.run h.writer.sound.shape hS (hcol hne) hop hread (h.writer.sound.pcOk u)
        (h.complete u) (runThread_of_step hs)
    · exact hothers he u hu
  · obtain ⟨low', he, hwriter⟩ := h.writer.run hs
    refine ⟨low', hwriter, fun u => ?_, hnoDelete he⟩
    by_cases hu : u = t
    · subst hu
      intro columns hop _
      rw [he.op] at hop
      exact absurd ⟨columns, hop⟩ hget
    · exact hothers he u hu

theorem ReadersInv.ret (h : ReadersInv s w low S) (hs : s.step (.ret t) = some s') :
    ReadersInv s' w low S := by
  have hr := returned_of_step hs
  have hidle : (s'.threads t).pc = .idle := by rw [hr.thread]
  refine ⟨h.writer.ret hs, fun u => ?_, fun u columns tid hop => ?_⟩
  · by_cases hu : u = t
    · subst hu
      exact fun _ _ hne => absurd hidle hne
    · rw [hr.others u hu, hr.tree]
      exact h.complete u
  · by_cases hu : u = t
    · subst hu
      exact hidle
    · rw [hr.others u hu] at hop ⊢
      exact h.noDelete u columns tid hop

theorem readersInv_reachable (hS : PrefixFree S)
    (hs : btreeSystem.ReachableBy (OneInserter w S) s) : ∃ low, ReadersInv s w low S := by
  refine hs.invariant (P := fun s => ∃ low, ReadersInv s w low S) ?_ ?_
  · rintro s₀ rfl
    exact ⟨_, readersInv_init w⟩
  · rintro s a s' ⟨low, h⟩ hc hst
    cases a with
    | invoke t op => exact ⟨low, h.invoke hc hst⟩
    | run t => exact h.run hS hst
    | ret t => exact ⟨low, h.ret hst⟩

/-- **A `Get` misses nothing** whose insert had returned before it started, when
no columns are a proper prefix of others and no offset wraps. -/
theorem get_finds_returned (hS : PrefixFree S)
    (hs : btreeSystem.ReachableBy (WrapFree (OneInserter w S)) s)
    {columns : Key} {results : List Nat} (hop : (s.threads t).op = .get columns)
    (hdone : (s.threads t).pc = .done results) {tid : Nat} (htid : tid < 2 ^ 64)
    (hbefore : buildKey columns tid ∈ (s.threads t).before) : tid ∈ results := by
  obtain ⟨low, h⟩ := readersInv_reachable hS (reachable_of_wrapFree hs)
  obtain ⟨-, hfound⟩ := h.complete t columns hop (by simp [hdone])
  rw [hdone] at hfound
  exact hfound tid htid hbefore

/-- A lookup that goes on from one leaf to the next; an insert into the left one comes
between its two reads of that leaf. -/
def lookupBesideInsert : List BtreeAction :=
  twoLeaves ++ getCall 1 text 4 ++ insertCall 0 (texts 6 3) 1 4 ++ List.replicate 2 (.run 1)

/-- The three ids of `text` were inserted before the lookup starts. -/
theorem get_finds_returned_twoLeaves : ∃ s results,
    btreeSystem.ReachableBy (WrapFree (OneInserter 0 Texts)) s ∧ (s.threads 1).pc = .done results ∧
      ∀ tid ∈ [10, 20, 30], tid ∈ results := by
  have hrun : (btreeSystem.exec (WrapFree (OneInserter 0 Texts)) init lookupBesideInsert).map
      (fun s => ((s.threads 1).op, (s.threads 1).pc,
        [10, 20, 30].all fun tid => decide (buildKey text tid ∈ (s.threads 1).before))) =
      some (.get text, .done [10, 20, 30], true) := by
    decide +kernel
  obtain ⟨s, hexec, hview⟩ := Option.map_eq_some_iff.mp hrun
  obtain ⟨hop, hview⟩ := Prod.mk.inj hview
  obtain ⟨hdone, hbefore⟩ := Prod.mk.inj hview
  have hs : btreeSystem.ReachableBy (WrapFree (OneInserter 0 Texts)) s :=
    ⟨init, rfl, TSys.Steps.of_exec _ hexec⟩
  refine ⟨s, _, hs, hdone, fun tid htid => ?_⟩
  have hsmall : tid < 2 ^ 64 := by
    have : ∀ u ∈ [10, 20, 30], u < 2 ^ 64 := by decide
    exact this tid htid
  exact get_finds_returned prefixFree_texts hs hop hdone hsmall
    (of_decide_eq_true (List.all_eq_true.mp hbefore tid htid))

/-- `"a"` and `"a\0"` as `VARCHAR` columns: the key of the second, with id 1,
sorts between those of the first, and ends the scan of the leaf. -/
theorem get_misses_returned : ¬ ∀ s t columns results tid,
    btreeSystem.ReachableBy (WrapFree (OneInserter 0 fun _ => True)) s →
      (s.threads t).op = .get columns →
      (s.threads t).pc = .done results → tid < 2 ^ 64 →
        buildKey columns tid ∈ (s.threads t).before → tid ∈ results := by
  intro hall
  have hrun : (btreeSystem.exec (WrapFree (OneInserter 0 fun _ => True)) init
      (insertCall 0 [0x61, 0, 0] 1 3 ++ insertCall 0 [0x61, 0] 1 3 ++ getCall 1 [0x61, 0] 3)).map
        (fun s => ((s.threads 1).op, (s.threads 1).pc, (s.threads 1).before)) =
      some (.get [0x61, 0], .done [], [buildKey [0x61, 0] 1, buildKey [0x61, 0, 0] 1]) := by
    decide +kernel
  obtain ⟨s, hexec, hview⟩ := Option.map_eq_some_iff.mp hrun
  obtain ⟨hop, hview⟩ := Prod.mk.inj hview
  obtain ⟨hdone, hbefore⟩ := Prod.mk.inj hview
  have hfound := hall s 1 [0x61, 0] [] 1 ⟨init, rfl, TSys.Steps.of_exec _ hexec⟩ hop hdone
    (by decide) (by rw [hbefore]; exact List.mem_cons_self)
  simp at hfound

/-! ## Nothing comes twice -/

/-- The keys of the ids lie left of the fence of the page. -/
def LeftOfFence (s : BTreeIndex) (pid : Nat) (columns : Key) (results : List Nat) : Prop :=
  ∀ b ∈ (s.pages pid).bind fun pg => pg.node.high, ∀ u ∈ results, buildKey columns u < b

instance (s : BTreeIndex) (pid : Nat) (columns : Key) (results : List Nat) :
    Decidable (s.LeftOfFence pid columns results) :=
  decidable_of_iff (((s.pages pid).bind fun pg => pg.node.high).all
    fun b => decide (∀ u ∈ results, buildKey columns u < b))
      (by simp [LeftOfFence, Option.all_eq_true])

/-- When a reader reads the right link of a leaf, the keys that it took there are
still left of the leaf's fence. -/
def FenceAhead (s : BTreeIndex) : BtreeAction → Prop
  | .run t =>
      match (s.threads t).pc, (s.threads t).op with
      | .follow pid results, .get columns => s.LeftOfFence pid columns results
      | _, _ => True
  | _ => True

/-- What a reader has taken that is about to read a right link. -/
def taken (th : BtreeThread) : Option (Nat × Key × List Nat) :=
  match th.pc, th.op with
  | .follow pid results, .get columns => some (pid, columns, results)
  | _, _ => none

theorem fenceAhead_run (s : BTreeIndex) (t : Nat) : s.FenceAhead (.run t) ↔
    ∀ x ∈ taken (s.threads t), s.LeftOfFence x.1 x.2.1 x.2.2 := by
  unfold FenceAhead taken
  dsimp only
  split <;> simp

instance (s : BTreeIndex) (a : BtreeAction) : Decidable (s.FenceAhead a) :=
  match a with
  | .run t =>
      decidable_of_iff ((taken (s.threads t)).all fun x => decide (s.LeftOfFence x.1 x.2.1 x.2.2))
        (by simp [fenceAhead_run, Option.all_eq_true])
  | .invoke .. | .ret _ => inferInstanceAs (Decidable True)

/-- One inserting thread, and no split between the two reads of a leaf that
moves a key already taken. -/
def FencesAhead (w : Nat) (s : BTreeIndex) (a : BtreeAction) : Prop :=
  OneInserter w (fun _ => True) s a ∧ s.FenceAhead a

instance (w : Nat) (s : BTreeIndex) (a : BtreeAction) : Decidable (FencesAhead w s a) :=
  inferInstanceAs (Decidable (_ ∧ _))

/-- The results of a `Get` are in increasing order and lie left of the reader. -/
def Ascending (low : Nat → Key) (th : BtreeThread) : Prop :=
  ∀ columns, th.op = .get columns →
    match th.pc with
    | .scan pid results => Behind columns results (low pid)
    | .follow _ results => results.Pairwise (· < ·) ∧ ∀ u ∈ results, u < 2 ^ 64
    | .done results => results.Pairwise (· < ·)
    | _ => True

/-- What others do does not touch what a reader has. -/
theorem Ascending.grows {tr tr' : LinkTree Key} (hg : LinkTree.Grows tr tr' low low')
    {th : BtreeThread} (hok : PcOk tr low S th) (h : Ascending low th) : Ascending low' th := by
  intro columns hop
  have hplace := h columns hop
  cases hpc : th.pc with
  | scan pid results =>
      simp only [PcOk, hpc] at hok hplace ⊢
      obtain ⟨-, n, hn, -⟩ := hok
      rwa [hg.low pid n hn]
  | follow pid results =>
      simp only [hpc] at hplace ⊢
      exact hplace
  | done results =>
      simp only [hpc] at hplace ⊢
      exact hplace
  | _ => trivial

/-- A step of the reader. -/
theorem Ascending.run (h : Shape s low S) {columns : Key} (hop : (s.threads t).op = .get columns)
    (hread : (s.threads t).pc.reading = true) (hok : PcOk s.tree low S (s.threads t))
    (hfence : s.FenceAhead (.run t)) (ha : Ascending low (s.threads t))
    (hs : s.runThread t (s.threads t).pc = .ok s') : Ascending low (s'.threads t) := by
  have hkey : (s.threads t).op.key = buildKey columns 0 := by rw [hop]; rfl
  have hplace := ha columns hop
  cases hpc : (s.threads t).pc with
  | idle => simp [hpc, runThread] at hs
  | done => simp [hpc, runThread] at hs
  | loadRoot =>
      rw [hpc] at hs
      obtain rfl := Except.ok.inj hs
      rw [goto_eq, moved_threads]
      exact fun _ _ => trivial
  | descend pid =>
      rw [hpc] at hs
      obtain ⟨pg, hp, hcase⟩ := descendStep_cases hs
      rcases hcase with ⟨-, _, -, rfl⟩ | ⟨-, hnot, -⟩ | ⟨-, -, rfl⟩ | ⟨-, child, -, rfl⟩
      · rw [moved_threads]
        exact fun _ _ => .nil
      · exact absurd hop (hnot columns)
      · rw [moved_threads]
        exact fun _ _ => trivial
      · rw [moved_threads]
        exact fun _ _ => trivial
  | scan pid results =>
      rw [hpc] at hs
      simp only [PcOk, hpc] at hok hplace
      obtain ⟨-, n, hn, hlevel⟩ := hok
      obtain ⟨pg, hp, hcase⟩ := scanStep_cases hs
      obtain rfl := Option.some.inj ((tree_nodes hp).symm.trans hn)
      have hlay := BtreePage.layout_leaf hlevel
      obtain ⟨hsorted, -, hfound⟩ := hplace.leaf h hp hlevel
      rw [hkey] at hcase
      rcases hcase with ⟨hsplit, rfl⟩ | ⟨-, -, rfl⟩ | ⟨-, -, rfl⟩ <;> rw [moved_threads] <;>
        intro columns' hop' <;> obtain rfl : columns = columns' := by simpa [hop] using hop'
      · obtain ⟨b, hb, hle⟩ := Layout.hasSplit_iff.mp hsplit
        rw [← hlay] at hb
        obtain ⟨-, -, hlt⟩ := h.inv.at_right (tree_nodes hp) hb hle
        exact hplace.mono hlt.le
      · refine ⟨hsorted, fun u hu => ?_⟩
        rcases List.mem_append.mp hu with hu | hu
        · exact (hplace.lt u hu).1
        · exact (hfound u hu).1
      · exact hsorted
  | follow pid results =>
      simp only [FenceAhead, hpc, hop] at hfence
      rw [hpc] at hs
      simp only [PcOk, hpc] at hok hplace
      obtain ⟨-, n, hn, -, b, hb⟩ := hok
      obtain ⟨hsorted, hbound⟩ := hplace
      obtain ⟨pg, hp, hcase⟩ := followStep_cases hs
      obtain rfl := Option.some.inj ((tree_nodes hp).symm.trans hn)
      obtain ⟨hat, hlowr, -⟩ := h.inv.at_right (tree_nodes hp) hb le_rfl
      rcases hcase with ⟨-, rfl⟩ | ⟨-, rfl⟩ <;> rw [moved_threads] <;> intro columns' hop' <;>
        obtain rfl : columns = columns' := by simpa [hop] using hop'
      · exact hsorted
      · -- the right page starts at the fence, right of everything taken
        have hlowr' : low pg.rlink = b := hlowr
        refine ⟨hsorted, fun u hu => ⟨hbound u hu, ?_⟩⟩
        rw [hlowr']
        exact hfence b (by rw [hp]; exact hb) u hu
  | leaf pid => simp [hpc, BtreePc.reading] at hread
  | root level sentinel pid newPid => simp [hpc, BtreePc.reading] at hread
  | reloadRoot dropLevel sentinel newPid => simp [hpc, BtreePc.reading] at hread
  | redescend dropLevel sentinel newPid pid level => simp [hpc, BtreePc.reading] at hread
  | inter sentinel value pid => simp [hpc, BtreePc.reading] at hread

theorem ascending_reachable (hs : btreeSystem.ReachableBy (FencesAhead w) s) :
    ∃ low, WriterInv s w low (fun _ => True) ∧ ∀ t, Ascending low (s.threads t) := by
  refine hs.invariant (P := fun s => ∃ low, WriterInv s w low (fun _ => True) ∧
    ∀ t, Ascending low (s.threads t)) ?_ ?_
  · rintro s₀ rfl
    exact ⟨_, writerInv_init w, fun _ _ _ => trivial⟩
  · rintro s a s' ⟨low, h, hasc⟩ ⟨hc, hfence⟩ hst
    cases a with
    | invoke t op =>
        have hi := invoked_of_step hst
        refine ⟨low, h.invoke hc.oneWriter hst, fun u => ?_⟩
        by_cases hu : u = t
        · rw [hu, hi.thread]
          exact fun _ _ => trivial
        · rw [hi.others u hu]
          exact hasc u
    | ret t =>
        have hr := returned_of_step hst
        refine ⟨low, h.ret hst, fun u => ?_⟩
        by_cases hu : u = t
        · rw [hu, hr.thread]
          exact fun _ _ => trivial
        · rw [hr.others u hu]
          exact hasc u
    | run t =>
        by_cases hget : ∃ columns, (s.threads t).op = .get columns
        · obtain ⟨columns, hop⟩ := hget
          have he := h.effect_read hop hst
          refine ⟨low, h.of_effect he hst, fun u => ?_⟩
          by_cases hu : u = t
          · subst hu
            exact Ascending.run h.sound.shape hop (h.reading u columns hop).1
              (h.sound.pcOk u) hfence
              (hasc u) (runThread_of_step hst)
          · rw [he.others u hu]
            exact hasc u
        · obtain ⟨low', he, h'⟩ := h.run hst
          refine ⟨low', h', fun u => ?_⟩
          by_cases hu : u = t
          · subst hu
            intro columns hop
            rw [he.op] at hop
            exact absurd ⟨columns, hop⟩ hget
          · rw [he.others u hu]
            exact (hasc u).grows he.grows (h.sound.pcOk u)

/-- **No id comes twice** from one `Get`, when no split between its two reads of a
leaf moves a key that it has taken and no offset wraps. -/
theorem get_nodup (hs : btreeSystem.ReachableBy (WrapFree (FencesAhead w)) s) {columns : Key}
    {results : List Nat} (hop : (s.threads t).op = .get columns)
    (hdone : (s.threads t).pc = .done results) : results.Nodup := by
  obtain ⟨low, -, hasc⟩ := ascending_reachable (reachable_of_wrapFree hs)
  have hsorted := hasc t columns hop
  rw [hdone] at hsorted
  exact hsorted.imp (fun hlt => hlt.ne)

/-- A lookup over both leaves, with an insert between its two reads of the left one. -/
theorem get_nodup_twoLeaves : ∃ s results, btreeSystem.ReachableBy (WrapFree (FencesAhead 0)) s ∧
    (s.threads 1).pc = .done results ∧ results.length = 3 ∧ results.Nodup := by
  have hrun : (btreeSystem.exec (WrapFree (FencesAhead 0)) init lookupBesideInsert).map
      (fun s => ((s.threads 1).op, (s.threads 1).pc)) = some (.get text, .done [10, 20, 30]) := by
    decide +kernel
  obtain ⟨s, hexec, hview⟩ := Option.map_eq_some_iff.mp hrun
  obtain ⟨hop, hdone⟩ := Prod.mk.inj hview
  have hs : btreeSystem.ReachableBy (WrapFree (FencesAhead 0)) s :=
    ⟨init, rfl, TSys.Steps.of_exec _ hexec⟩
  exact ⟨s, _, hs, hdone, rfl, get_nodup hs hop hdone⟩

/-- Thread 1 has read the slots of the left leaf when six inserts fill and split
it; then it reads the leaf's right link. -/
def splitBetweenReads : List BtreeAction :=
  twoLeaves ++ getCall 1 text 4 ++
    ([6, 7, 8, 9, 10].flatMap fun i => insertCall 0 (texts i 21) 1 4) ++
    insertCall 0 (texts 11 9) 1 5 ++ List.replicate 4 (.run 1)

/-- The keys that the split moved are taken again. -/
theorem get_returns_twice : ¬ ∀ s t columns results,
    btreeSystem.ReachableBy (WrapFree (OneInserter 0 fun _ => True)) s →
      (s.threads t).op = .get columns →
      (s.threads t).pc = .done results → results.Nodup := by
  intro hall
  have hrun : (btreeSystem.exec (WrapFree (OneInserter 0 fun _ => True)) init splitBetweenReads).map
      (fun s => ((s.threads 1).op, (s.threads 1).pc)) =
        some (.get text, .done [10, 20, 10, 20, 30]) := by
    decide +kernel
  obtain ⟨s, hexec, hview⟩ := Option.map_eq_some_iff.mp hrun
  obtain ⟨hop, hdone⟩ := Prod.mk.inj hview
  have hnodup := hall s 1 _ _ ⟨init, rfl, TSys.Steps.of_exec _ hexec⟩ hop hdone
  revert hnodup
  decide

end Readers

end BTreeIndex

end Db7
