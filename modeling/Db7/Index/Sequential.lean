import Db7.Index.NoWrap

/-!
# One thread at a time

What a caller sees of the index while one thread inserts and deletes and no offset
wraps:

* **every call ends** (`call_ends`): a step of the writer goes to a later phase of
  its call, one level down, up the stack, or right on its level (`rank_run`);
* **a `Get` is exact** (`get_exact`): between two calls of the writer it returns
  the ids of the pairs that are there, in increasing order, as long as no columns
  are a proper prefix of others.

`get_exact_fails` is the run of two inserts after which a `Get` misses one.
-/

namespace Db7

open Lib Lib.BLink Function KeyNormEncoder

namespace BTreeIndex

/-! ## Every loop ends -/

/-- Phase, level, and distance on the level. -/
abbrev Rank := Nat × Nat × Nat

/-- The lexicographic order. -/
def Rank.Less : Rank → Rank → Prop := Prod.Lex (· < ·) (Prod.Lex (· < ·) (· < ·))

theorem Rank.wellFounded : WellFounded Rank.Less :=
  (Prod.lex Nat.lt_wfRel (Prod.lex Nat.lt_wfRel Nat.lt_wfRel)).wf

theorem Rank.less_iff {a b c a' b' c' : Nat} :
    Rank.Less (a, b, c) (a', b', c') ↔ a < a' ∨ a = a' ∧ (b < b' ∨ b = b' ∧ c < c') := by
  simp [Rank.Less, Prod.lex_def]

/-- How far the call of thread `t` is from its end. -/
noncomputable def rank (s : BTreeIndex) (low : Nat → Key) (t : Nat) : Rank :=
  match (s.threads t).pc with
  | .loadRoot => (5, 0, 0)
  | .descend pid => (4, (s.pages pid).elim 0 BtreePage.level, s.tree.toTheRight low s.nextPid pid)
  | .leaf pid => (3, 0, s.tree.toTheRight low s.nextPid pid)
  | .scan pid _ => (3, s.tree.toTheRight low s.nextPid pid, 1)
  | .follow pid _ => (3, s.tree.toTheRight low s.nextPid pid, 0)
  | .inter _ _ pid => (2, (s.threads t).stack.length, s.tree.toTheRight low s.nextPid pid)
  | .root .. => (1, 0, 0)
  | .reloadRoot .. | .redescend .. | .idle | .done _ => (0, 0, 0)

section Rank

variable {s s' : BTreeIndex} {low low' : Nat → Key} {S : Key → Prop} {w t : Nat}

/-- The right neighbour of a page that a thread leaves to the right. -/
theorem Shape.walk_right (h : Shape s low S)
    (hlow : ∀ p n, s.tree.nodes p = some n → low' p = low p)
    {pid : Nat} {pg : BtreePage} (hp : s.pages pid = some pg) {b : Key} (hb : b ∈ pg.node.high) :
    (∃ rpg, s.pages pg.rlink = some rpg ∧ rpg.level = pg.level) ∧
      s.tree.toTheRight low' s.nextPid pg.rlink < s.tree.toTheRight low s.nextPid pid := by
  obtain ⟨hat, -, -⟩ := h.inv.at_right (tree_nodes hp) hb le_rfl
  obtain ⟨rpg, hrp, hlevel, -⟩ := page_of_at hat
  refine ⟨⟨rpg, hrp, hlevel⟩, ?_⟩
  rw [LinkTree.toTheRight_congr hlow
    (by rw [show s.tree.nodes pg.rlink = _ from tree_nodes hrp]; simp)]
  exact h.toTheRight_lt hp hb

/-- The same after `HasSplit`. -/
theorem Shape.walk_split (h : Shape s low S)
    (hlow : ∀ p n, s.tree.nodes p = some n → low' p = low p)
    {pid : Nat} {pg : BtreePage} (hp : s.pages pid = some pg) {lay : Layout}
    (hlay : pg.layout = lay) {key : Key} (hsplit : lay.hasSplit pg key = true) :
    (∃ rpg, s.pages pg.rlink = some rpg ∧ rpg.level = pg.level) ∧
      s.tree.toTheRight low' s.nextPid pg.rlink < s.tree.toTheRight low s.nextPid pid := by
  subst hlay
  obtain ⟨b, hb, -⟩ := Layout.hasSplit_iff.mp hsplit
  exact h.walk_right hlow hp hb

/-- After a split the call goes on one level up, or at the root. -/
theorem rank_afterSplit {level pid newPid a b c : Nat} {sentinel : Key}
    (hlt : ∀ top rest, (s.threads t).stack = top :: rest → 2 < a ∨ a = 2 ∧ rest.length < b)
    (ha : 1 < a) :
    Rank.Less (rank (s.afterSplit t level sentinel pid newPid) low' t) (a, b, c) := by
  rcases afterSplit_eq s t level pid newPid sentinel with ⟨pc, heq, -, rfl⟩ | ⟨top, rest,
    hcons, heq⟩ <;>
    rw [heq] <;> unfold rank <;> rw [moved_threads]
  · exact Rank.less_iff.mpr (.inl ha)
  · rcases hlt top rest hcons with h | ⟨rfl, h⟩
    · exact Rank.less_iff.mpr (.inl h)
    · exact Rank.less_iff.mpr (.inr ⟨rfl, .inl h⟩)

/-- A step of the writer brings its call nearer to its end. -/
theorem rank_run (h : WriterInv s w low S) (hs : s.step (.run w) = some s') :
    ∃ low', WriterInv s' w low' S ∧ Rank.Less (rank s' low' w) (rank s low w) := by
  obtain ⟨low', he, h'⟩ := h.run hs
  have hshape := h.sound.shape
  have hok := h.sound.pcOk w
  have hlow := he.grows.low
  have hrun := runThread_of_step hs
  refine ⟨low', h', ?_⟩
  have hdone : ∀ {s₁ : BTreeIndex} {stack : List Nat} {results : List Nat} {a b c : Nat}, 0 < a →
      Rank.Less (rank (s₁.moved w stack (.done results)) low' w) (a, b, c) := by
    intro s₁ stack results a b c ha
    unfold rank
    rw [moved_threads]
    exact Rank.less_iff.mpr (.inl ha)
  cases hpc : (s.threads w).pc with
  | idle => exact absurd hpc (running_of_step hs)
  | done => simp [hpc, runThread] at hrun
  | loadRoot =>
      rw [hpc] at hrun
      obtain rfl := Except.ok.inj hrun
      rw [goto_eq]
      simp only [rank, moved_threads, hpc]
      exact Rank.less_iff.mpr (.inl (by omega))
  | descend pid =>
      rw [hpc] at hrun
      obtain ⟨pg, hp, hcase⟩ := descendStep_cases hrun
      rcases hcase with ⟨-, _, -, rfl⟩ | ⟨-, -, rfl⟩ | ⟨hlevel, hsplit, rfl⟩ | ⟨hlevel, child,
        hchild, rfl⟩ <;>
        simp only [rank, moved_threads, hpc]
      · exact Rank.less_iff.mpr (.inl (by omega))
      · exact Rank.less_iff.mpr (.inl (by omega))
      · -- right on this level
        obtain ⟨⟨rpg, hrp, hrlevel⟩, hlt⟩ :=
          hshape.walk_split hlow hp (BtreePage.layout_inter hlevel) hsplit
        refine Rank.less_iff.mpr (.inr ⟨rfl, .inr ⟨?_, hlt⟩⟩)
        show (s.pages pg.rlink).elim 0 BtreePage.level = (s.pages pid).elim 0 BtreePage.level
        rw [hrp, hp]
        exact hrlevel
      · -- down
        obtain ⟨hat, -⟩ := hshape.at_child hp hlevel hchild
        obtain ⟨cpg, hcp, hclevel, -⟩ := page_of_at hat
        refine Rank.less_iff.mpr (.inr ⟨rfl, .inl ?_⟩)
        show (s.pages child).elim 0 BtreePage.level < (s.pages pid).elim 0 BtreePage.level
        rw [hcp, hp]
        show cpg.level < pg.level
        omega
  | leaf pid =>
      simp only [hpc, runThread] at hrun
      simp only [PcOk, hpc] at hok
      obtain ⟨⟨n, hn, hnlevel, -⟩, -⟩ := hok
      cases hop : (s.threads w).op with
      | insert columns tid =>
          simp only [hop] at hrun
          obtain ⟨pg, hp, hcase⟩ := insertStep_cases hrun
          obtain rfl := Option.some.inj ((tree_nodes hp).symm.trans hn)
          rw [rank.eq_def s low w, hpc]
          rcases hcase with ⟨hsplit, rfl⟩ | ⟨-, -, pg', -, rfl⟩ | ⟨-, -, -, l, r, sentinel, -, rfl⟩
          · simp only [rank, moved_threads]
            exact Rank.less_iff.mpr (.inr ⟨rfl, .inr ⟨rfl,
              (hshape.walk_split hlow hp (BtreePage.layout_leaf hnlevel) hsplit).2⟩⟩)
          · exact hdone (by omega)
          · exact rank_afterSplit (fun _ _ _ => .inl (by omega)) (by omega)
      | delete columns tid =>
          simp only [hop] at hrun
          obtain ⟨pg, hp, hcase⟩ := deleteStep_cases hrun
          obtain rfl := Option.some.inj ((tree_nodes hp).symm.trans hn)
          rw [rank.eq_def s low w, hpc]
          rcases hcase with ⟨hsplit, rfl⟩ | ⟨-, pg', -, rfl⟩
          · simp only [rank, moved_threads]
            exact Rank.less_iff.mpr (.inr ⟨rfl, .inr ⟨rfl,
              (hshape.walk_split hlow hp (BtreePage.layout_leaf hnlevel) hsplit).2⟩⟩)
          · exact hdone (by omega)
      | get columns => simp [hop] at hrun
  | root level sentinel pid newPid =>
      rw [hpc] at hrun
      obtain ⟨rpg, -, hpath⟩ := h.path
      rw [hpc] at hpath
      rw [rank.eq_def s low w, hpc]
      rcases rootStep_cases hrun with ⟨-, -, root, -, rfl⟩ | ⟨hne, -⟩
      · exact hdone (by omega)
      · exact absurd hpath.symm hne
  | reloadRoot dropLevel sentinel newPid =>
      obtain ⟨rpg, -, hpath⟩ := h.path
      rw [hpc] at hpath
      exact hpath.elim
  | redescend dropLevel sentinel newPid pid level =>
      obtain ⟨rpg, -, hpath⟩ := h.path
      rw [hpc] at hpath
      exact hpath.elim
  | inter sentinel value pid =>
      rw [hpc] at hrun
      simp only [PcOk, hpc] at hok
      obtain ⟨-, l, -, ⟨n, hn, hnlevel, -⟩, -⟩ := hok
      obtain ⟨pg, hp, hcase⟩ := interStep_cases hrun
      obtain rfl := Option.some.inj ((tree_nodes hp).symm.trans hn)
      have hlevel : pg.level ≠ 0 := by
        have : pg.level = l + 1 := hnlevel
        omega
      rw [rank.eq_def s low w, hpc]
      rcases hcase with ⟨hsplit, rfl⟩ | ⟨-, -, pg', -, rfl⟩ | ⟨-, -, -, l, r, sentinel', -, rfl⟩
      · simp only [rank, moved_threads]
        exact Rank.less_iff.mpr (.inr ⟨rfl, .inr ⟨rfl,
          (hshape.walk_split hlow hp (BtreePage.layout_inter hlevel) hsplit).2⟩⟩)
      · exact hdone (by omega)
      · refine rank_afterSplit (fun top rest hcons => .inr ⟨rfl, ?_⟩) (by omega)
        have hcons' : (s.threads w).stack = top :: rest := hcons
        rw [hcons', List.length_cons]
        omega
  | scan pid results =>
      rw [hpc] at hrun
      simp only [PcOk, hpc] at hok
      obtain ⟨-, n, hn, hnlevel⟩ := hok
      obtain ⟨pg, hp, hcase⟩ := scanStep_cases hrun
      obtain rfl := Option.some.inj ((tree_nodes hp).symm.trans hn)
      rw [rank.eq_def s low w, hpc]
      rcases hcase with ⟨hsplit, rfl⟩ | ⟨-, -, rfl⟩ | ⟨-, -, rfl⟩
      · simp only [rank, moved_threads]
        exact Rank.less_iff.mpr (.inr ⟨rfl, .inl
          (hshape.walk_split hlow hp (BtreePage.layout_leaf hnlevel) hsplit).2⟩)
      · simp only [rank, moved_threads]
        refine Rank.less_iff.mpr (.inr ⟨rfl, .inr ⟨?_, by omega⟩⟩)
        exact LinkTree.toTheRight_congr hlow (by rw [hn]; simp) _
      · exact hdone (by omega)
  | follow pid results =>
      rw [hpc] at hrun
      simp only [PcOk, hpc] at hok
      obtain ⟨-, n, hn, -, b, hb⟩ := hok
      obtain ⟨pg, hp, hcase⟩ := followStep_cases hrun
      obtain rfl := Option.some.inj ((tree_nodes hp).symm.trans hn)
      rw [rank.eq_def s low w, hpc]
      rcases hcase with ⟨-, rfl⟩ | ⟨-, rfl⟩
      · exact hdone (by omega)
      · simp only [rank, moved_threads]
        exact Rank.less_iff.mpr (.inr ⟨rfl, .inl (hshape.walk_right hlow hp hb).2⟩)

/-- The call of thread `t`, left alone, is done, or an assertion fails, or `HasSpace` is
about to wrap. -/
def CallEnds (s : BTreeIndex) (t : Nat) : Prop :=
  ∃ s', btreeSystem.Steps (WrapFree (Solo t)) s s' ∧
    ((∃ results, (s'.threads t).pc = .done results) ∨
      (∃ message, s'.runThread t (s'.threads t).pc = .error (.assertion message)) ∨
        ¬ s'.NoWrap (.run t))

theorem call_ends (h : WriterInv s w low S) (hpc : (s.threads w).pc ≠ .idle) : s.CallEnds w := by
  -- induction on the rank
  generalize hr : rank s low w = r
  induction r using Rank.wellFounded.induction generalizing s low with
  | _ r ih =>
  by_cases hdone : ∃ results, (s.threads w).pc = .done results
  · exact ⟨s, .refl, .inl hdone⟩
  by_cases hno : s.NoWrap (.run w)
  · cases hrun : s.runThread w (s.threads w).pc with
    | error fault =>
        cases fault with
        | assertion message => exact ⟨s, .refl, .inr (.inl ⟨message, hrun⟩)⟩
        | overrun =>
            exact absurd hrun (h.run_ne_overrun ⟨hpc, fun results hd => hdone ⟨results, hd⟩⟩ hno)
    | ok s₁ =>
        have hs := step_of_runThread hrun
        obtain ⟨low₁, h₁, hlt⟩ := rank_run h hs
        have hne : (s₁.threads w).pc ≠ .idle := by
          by_cases hget : ∃ columns, (s.threads w).op = .get columns
          · obtain ⟨columns, hop⟩ := hget
            obtain ⟨stack, pc, rfl, -, hpc'⟩ := reading_step hop (h.reading w columns hop).1 hrun
            rwa [moved_threads]
          · exact writing_step (fun columns hop => hget ⟨columns, hop⟩) hrun
        obtain ⟨s', hsteps, hend⟩ := ih _ (hr ▸ hlt) h₁ hne rfl
        have hfirst : btreeSystem.Steps (WrapFree (Solo w)) s s₁ := .single ⟨rfl, hno⟩ hs
        exact ⟨s', hfirst.trans hsteps, hend⟩
  · exact ⟨s, .refl, .inr (.inr hno)⟩

end Rank

/-! ## Lookups are exact -/

/-- `TlState`'s stack has room for the pages above the leaves. -/
def StackFits (s : BTreeIndex) : Prop := ∀ pg ∈ s.pages s.rootId, pg.level ≤ 16

/-- A `Get` by thread `t` returns the ids of the pairs that are there, each once
and in increasing order. -/
def GetExact (s : BTreeIndex) (t : Nat) (columns : Key) : Prop :=
  ∃ s₀ s' results, s.step (.invoke t (.get columns)) = some s₀ ∧
    btreeSystem.Steps (Solo t) s₀ s' ∧ (s'.threads t).pc = .done results ∧
    results.Pairwise (· < ·) ∧ ∀ u, u ∈ results ↔ u < 2 ^ 64 ∧ buildKey columns u ∈ s.present

section Exact

variable {s : BTreeIndex} {low : Nat → Key} {S : Key → Prop} {w : Nat}

theorem get_exact (h : WriterInv s w low S) (hS : PrefixFree S) (hidle : (s.threads w).pc = .idle)
    (hfits : s.StackFits) {columns : Key} (hcol : S columns) : s.GetExact w columns := by
  obtain ⟨s₀, s', results, hinvoke, hsteps, hdone, hsorted, hmem⟩ :=
    get_returns h.sound.shape hS hcol hidle hfits
  have hcurrent : s.current w = s.present := if_pos (.inr hidle)
  refine ⟨s₀, s', results, hinvoke, hsteps, hdone, hsorted, fun u => ?_⟩
  rw [hmem, h.keys, hcurrent]

/-- **One thread sees a sorted multimap**: its calls end, and between them a `Get`
finds exactly what is there, if no columns are a proper prefix of others and no offset
wraps. -/
theorem sequential_index (hS : PrefixFree S)
    (hs : btreeSystem.ReachableBy (WrapFree (OneWriter w S)) s) :
    ((s.threads w).pc ≠ .idle → s.CallEnds w) ∧
      ((s.threads w).pc = .idle → s.StackFits → ∀ columns, S columns → s.GetExact w columns) := by
  obtain ⟨low, h⟩ := writerInv_reachable (reachable_of_wrapFree hs)
  exact ⟨call_ends h, fun hidle hfits columns hcol => get_exact h hS hidle hfits hcol⟩

/-- The pairs of `text` over two leaves, one of them deleted. -/
def deleteOfThree : List BtreeAction := twoLeaves ++ deleteCall 0 text 20 4

theorem run_deleteOfThree :
    ((btreeSystem.exec (WrapFree (OneWriter 0 Texts)) init deleteOfThree).bind fun s =>
    (btreeSystem.exec (WrapFree (OneWriter 0 Texts)) s [.invoke 0 (.insert text 20)]).map fun s' =>
      ((s.threads 0).pc, (s.pages s.rootId).map BtreePage.level, s.present.length,
        (s'.threads 0).pc)) =
    some (.idle, some 1, 13, .loadRoot) := by
  decide +kernel

/-- After the split and the delete the lookups are exact, and the next call ends. -/
theorem sequential_index_deleteOfThree :
    ∃ s s', btreeSystem.ReachableBy (WrapFree (OneWriter 0 Texts)) s ∧
    s.present.length = 13 ∧ s.GetExact 0 text ∧
      btreeSystem.Steps (WrapFree (OneWriter 0 Texts)) s s' ∧ (s'.threads 0).pc ≠ .idle ∧
        s'.CallEnds 0 := by
  obtain ⟨s, hexec, hview⟩ := Option.bind_eq_some_iff.mp run_deleteOfThree
  obtain ⟨s', hinvoke, hview⟩ := Option.map_eq_some_iff.mp hview
  obtain ⟨hidle, hview⟩ := Prod.mk.inj hview
  obtain ⟨hlevel, hview⟩ := Prod.mk.inj hview
  obtain ⟨hlength, hpc⟩ := Prod.mk.inj hview
  have hfirst : btreeSystem.Steps (WrapFree (OneWriter 0 Texts)) init s :=
    TSys.Steps.of_exec _ hexec
  have hnext : btreeSystem.Steps (WrapFree (OneWriter 0 Texts)) s s' := TSys.Steps.of_exec _ hinvoke
  have hfits : s.StackFits := by
    intro pg hpg
    rw [Option.mem_def.mp hpg] at hlevel
    have : pg.level = 1 := by simpa using hlevel
    omega
  have hactive : (s'.threads 0).pc ≠ .idle := by rw [hpc]; simp
  exact ⟨s, s', ⟨init, rfl, hfirst⟩, hlength,
    (sequential_index prefixFree_texts ⟨init, rfl, hfirst⟩).2 hidle hfits _ (by decide),
      hnext, hactive,
    (sequential_index prefixFree_texts ⟨init, rfl, hfirst.trans hnext⟩).1 hactive⟩

instance (t : Nat) (s : BTreeIndex) (a : BtreeAction) : Decidable (Solo t s a) :=
  inferInstanceAs (Decidable (a = .run t))

/-- A call that is done makes no step of its own. -/
theorem stuck_of_done {s : BTreeIndex} {t : Nat} {results : List Nat}
    (h : (s.threads t).pc = .done results) : btreeSystem.step s (.run t) = none := by
  show s.step (.run t) = none
  simp [step, runThread, h]

/-- The texts `"a\0"` and `"a"` inserted; a `Get` of the second finds nothing. -/
theorem get_exact_fails : ¬ ∀ s, btreeSystem.ReachableBy (WrapFree (OneWriter 0 fun _ => True)) s →
    ((s.threads 0).pc ≠ .idle → s.CallEnds 0) ∧
      ((s.threads 0).pc = .idle → s.StackFits → ∀ columns, s.GetExact 0 columns) := by
  intro hall
  have hrun : ((btreeSystem.exec (WrapFree (OneWriter 0 fun _ => True)) init
      (insertCall 0 [0x61, 0, 0] 1 3 ++ insertCall 0 [0x61, 0] 1 3)).map fun s =>
        (s.present, (s.threads 0).pc, (s.pages s.rootId).map BtreePage.level,
          (s.step (.invoke 0 (.get [0x61, 0]))).bind fun s₀ =>
            (btreeSystem.exec (Solo 0) s₀ (List.replicate 3 (.run 0))).map
              fun s' => (s'.threads 0).pc)) =
      some ([buildKey [0x61, 0] 1, buildKey [0x61, 0, 0] 1], .idle, some 0, some (.done [])) := by
    decide +kernel
  obtain ⟨s, hexec, hview⟩ := Option.map_eq_some_iff.mp hrun
  obtain ⟨hpresent, hview⟩ := Prod.mk.inj hview
  obtain ⟨hidle, hview⟩ := Prod.mk.inj hview
  obtain ⟨hlevel, hget⟩ := Prod.mk.inj hview
  obtain ⟨s₀, hinvoke, hget⟩ := Option.bind_eq_some_iff.mp hget
  obtain ⟨s₁, hsolo, hdone₁⟩ := Option.map_eq_some_iff.mp hget
  have hfits : s.StackFits := by
    intro pg hpg
    rw [Option.mem_def.mp hpg] at hlevel
    have : pg.level = 0 := by simpa using hlevel
    omega
  obtain ⟨s₀', s', results, hinvoke', hsteps, hdone, -, hmem⟩ :=
    (hall s ⟨init, rfl, TSys.Steps.of_exec _ hexec⟩).2 hidle hfits [0x61, 0]
  -- the run of the `Get` is the evaluated one
  obtain rfl := Option.some.inj (hinvoke'.symm.trans hinvoke)
  obtain rfl := TSys.Steps.eq_of_stuck (fun _ _ h => h) hsteps (TSys.Steps.of_exec _ hsolo)
    (stuck_of_done hdone) (stuck_of_done hdone₁)
  obtain rfl : results = [] := by
    rw [hdone] at hdone₁
    simpa using hdone₁
  have hin := (hmem 1).mpr ⟨by decide, by rw [hpresent]; exact List.mem_cons_self⟩
  simp at hin

end Exact

end BTreeIndex

end Db7
