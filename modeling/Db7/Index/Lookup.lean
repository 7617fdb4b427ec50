import Db7.Index.Threads

/-!
# What `Get` finds

`InternalGet` walks right and collects the ids leaf by leaf. Two facts about
its results and the place where it stands make up its correctness:

* nothing is left behind (`Ahead`): a key with the columns is among the results
  or lies at or right of the place. It needs columns of which none is a proper
  prefix of another, or a foreign key could end the scan of a leaf early;
* nothing comes twice (`Behind`): the results are in increasing order and their
  keys lie left of the place.

`get_returns`: a `Get` that runs while nobody changes the pages ends, with
exactly the ids whose keys are there. Every loop of it ends because levels go
down and low fences go up.
-/

namespace Db7

open Lib Lib.BLink Function KeyNormEncoder
open BtreeVarlenLayoutLeaf (KeyOf)
open BTreeIndex (tree_nodes)

/-- Each id of a key in `K` is among the results, or its key lies at or right of
`bound`. -/
def Ahead (K : Key → Prop) (columns : Key) (results : List Nat) (bound : Key) : Prop :=
  ∀ u, u < 2 ^ 64 → K (buildKey columns u) → u ∈ results ∨ bound ≤ buildKey columns u

/-- The results are in increasing order, with keys left of `bound`. -/
structure Behind (columns : Key) (results : List Nat) (bound : Key) : Prop where
  sorted : results.Pairwise (· < ·)
  lt : ∀ u ∈ results, u < 2 ^ 64 ∧ buildKey columns u < bound

section Leaf

variable {s : BTreeIndex} {low : Nat → Key} {S K : Key → Prop} {columns bound bound' : Key}
  {pid : Nat} {pg : BtreePage} {results : List Nat}

theorem Ahead.mono (h : Ahead K columns results bound) (hle : bound' ≤ bound) :
    Ahead K columns results bound' :=
  fun u hu hk => (h u hu hk).imp_right hle.trans

/-- Left of all keys with the columns nothing is left behind. -/
theorem Ahead.of_le (hle : bound ≤ buildKey columns 0) : Ahead K columns results bound :=
  fun _ hu _ => .inr (hle.trans (buildKey_zero_le columns hu))

theorem Behind.mono (h : Behind columns results bound) (hle : bound ≤ bound') :
    Behind columns results bound' :=
  ⟨h.sorted, fun u hu => ⟨(h.lt u hu).1, (h.lt u hu).2.trans_le hle⟩⟩

theorem Behind.nil : Behind columns [] bound := ⟨.nil, by simp⟩

/-- After a leaf, what was not found lies at or right of its high fence. -/
theorem Ahead.leaf (ha : Ahead K columns results (low pid)) (h : BTreeIndex.Shape s low S)
    (hS : PrefixFree S) (hcol : S columns) (hp : s.pages pid = some pg) (hlevel : pg.level = 0)
    (hK : ∀ k, K k → s.tree.HasKey k) {u : Nat} (hu : u < 2 ^ 64) (hk : K (buildKey columns u)) :
    u ∈ results ++ (BtreeVarlenLayoutLeaf.get pg (buildKey columns 0)).1 ∨
      ∃ b ∈ pg.node.high, b ≤ buildKey columns u := by
  rcases ha u hu hk with hin | hle
  · exact .inl (List.mem_append_left _ hin)
  · by_cases hcov : Covers pg.node (buildKey columns u)
    · -- the leaf covers the key, so the key is in it
      obtain ⟨e, he, heq⟩ := h.inv.mem_of_hasKey (tree_nodes hp) hlevel hle hcov (hK _ hk)
      have hsorted := h.sorted hp
      have hkeys := (h.keys pid pg hp).leaf hlevel
      rw [BtreePage.layout_leaf hlevel] at hsorted
      have hentries : pg.node.entries = Layout.entries .leaf pg := by
        show pg.layout.entries pg = _
        rw [BtreePage.layout_leaf hlevel]
      rw [hentries] at he hkeys
      exact .inl (List.mem_append_right _
        (BtreeVarlenLayoutLeaf.get_complete hS hcol hsorted hkeys he hu heq))
    · unfold Covers at hcov
      push Not at hcov
      exact .inr hcov

/-- When the scan does not proceed, nothing is left. -/
theorem Ahead.last (ha : Ahead K columns results (low pid)) (h : BTreeIndex.Shape s low S)
    (hS : PrefixFree S) (hcol : S columns) (hp : s.pages pid = some pg) (hlevel : pg.level = 0)
    (hK : ∀ k, K k → s.tree.HasKey k)
    (hsplit : ¬ BtreeVarlenLayoutLeaf.hasSplit pg (buildKey columns 0) = true)
    (hproceed : ¬ (BtreeVarlenLayoutLeaf.get pg (buildKey columns 0)).2 = true) {u : Nat}
    (hu : u < 2 ^ 64) (hk : K (buildKey columns u)) :
    u ∈ results ++ (BtreeVarlenLayoutLeaf.get pg (buildKey columns 0)).1 := by
  rcases ha.leaf h hS hcol hp hlevel hK hu hk with hin | ⟨b, hb, hle⟩
  · exact hin
  · refine absurd ?_ hproceed
    have hhigh : ∀ b ∈ Layout.high .leaf pg, KeyOf S b := by
      intro b hb
      refine (h.keys pid pg hp).high b ?_
      show b ∈ pg.layout.high pg
      rwa [BtreePage.layout_leaf hlevel]
    have hb' : b ∈ Layout.high .leaf pg := by
      rw [← BtreePage.layout_leaf hlevel]
      exact hb
    have hlt := Layout.covers_of_not_hasSplit hsplit b hb'
    obtain ⟨q, v, hq, hv, -, rfl⟩ := hhigh b hb'
    -- the fence lies between two keys with the columns
    obtain rfl := eq_of_between hS hcol hq hlt.le hle
    exact (BtreeVarlenLayoutLeaf.get_proceed hhigh).mpr ⟨v, hb', hv⟩

/-- After a leaf, the results are in order and left of its high fence. -/
theorem Behind.leaf (hb : Behind columns results (low pid)) (h : BTreeIndex.Shape s low S)
    (hp : s.pages pid = some pg) (hlevel : pg.level = 0) :
    (results ++ (BtreeVarlenLayoutLeaf.get pg (buildKey columns 0)).1).Pairwise (· < ·) ∧
      (∀ b ∈ pg.node.high,
        Behind columns (results ++ (BtreeVarlenLayoutLeaf.get pg (buildKey columns 0)).1) b) ∧
      ∀ u ∈ (BtreeVarlenLayoutLeaf.get pg (buildKey columns 0)).1,
        u < 2 ^ 64 ∧ s.tree.HasKey (buildKey columns u) := by
  have hsorted := h.sorted hp
  have hkeys := (h.keys pid pg hp).leaf hlevel
  have hw := (h.nodeInv hp).within
  have hentries : pg.node.entries = Layout.entries .leaf pg := by
    show pg.layout.entries pg = _
    rw [BtreePage.layout_leaf hlevel]
  rw [BtreePage.layout_leaf hlevel] at hsorted
  rw [hentries] at hkeys hw
  obtain ⟨hsound, hpairwise⟩ := BtreeVarlenLayoutLeaf.get_sound (p := columns) hsorted hkeys
  have happ : (results ++ (BtreeVarlenLayoutLeaf.get pg (buildKey columns 0)).1).Pairwise
      (· < ·) := by
    refine List.pairwise_append.mpr ⟨hb.sorted, hpairwise, fun u hu v hv => ?_⟩
    obtain ⟨hv64, e, he, heq⟩ := hsound v hv
    have hlow := hw.lower e he
    rw [heq] at hlow
    exact (buildKey_lt_iff columns (hb.lt u hu).1 hv64).mp ((hb.lt u hu).2.trans_le hlow)
  refine ⟨happ, fun b hbm => ⟨happ, fun u hu => ?_⟩, fun u hu => ?_⟩
  · rcases List.mem_append.mp hu with hu | hu
    · exact ⟨(hb.lt u hu).1, (hb.lt u hu).2.trans ((h.nodeInv hp).nonempty b hbm)⟩
    · obtain ⟨hu64, e, he, heq⟩ := hsound u hu
      exact ⟨hu64, heq ▸ hw.upper b hbm e he⟩
  · obtain ⟨hu64, e, he, heq⟩ := hsound u hu
    exact ⟨hu64, pid, _, tree_nodes hp, hlevel, e, by rw [hentries]; exact he, heq⟩

end Leaf

namespace BTreeIndex

section Alone

variable {s : BTreeIndex} {low : Nat → Key} {S : Key → Prop} {t : Nat} {columns : Key}

/-- Only thread `t` runs. -/
def Solo (t : Nat) (_ : BTreeIndex) (a : BtreeAction) : Prop := a = .run t

theorem step_of_runThread {s' : BTreeIndex} (h : s.runThread t (s.threads t).pc = .ok s') :
    s.step (.run t) = some s' := by
  simp only [step, h]

theorem step_run_moved {stack stack' : List Nat} {pc pc' : BtreePc}
    (h : (s.moved t stack pc).runThread t pc = .ok ((s.moved t stack pc).moved t stack' pc')) :
    btreeSystem.Steps (Solo t) (s.moved t stack pc) (s.moved t stack' pc') := by
  refine .single rfl (step_of_runThread ?_)
  rw [moved_threads]
  rw [h, moved_moved]

theorem getNode_moved (h : Shape s low S) {pid : Nat} {pg : BtreePage} (hp : s.pages pid = some pg)
    (stack : List Nat) (pc : BtreePc) : (s.moved t stack pc).getNode pid = .ok pg :=
  h.getNode hp

/-- A page with a high fence has a right neighbour, and fewer pages right of that. -/
theorem Shape.toTheRight_lt (h : Shape s low S) {pid : Nat} {pg : BtreePage}
    (hp : s.pages pid = some pg) {b : Key} (hb : b ∈ pg.node.high) :
    s.tree.toTheRight low s.nextPid pg.rlink < s.tree.toTheRight low s.nextPid pid := by
  obtain ⟨hat, -, hlt⟩ := h.inv.at_right (tree_nodes hp) hb le_rfl
  obtain ⟨rpg, hrp, -, -⟩ := page_of_at hat
  have hne : s.tree.nodes pg.node.rlink ≠ none := by
    rw [tree_nodes hrp]
    simp
  exact LinkTree.toTheRight_lt hne (h.pid _ rpg hrp).2 hlt

/-- The descent ends at a leaf that starts at or left of the columns. -/
theorem steps_descend (h : Shape s low S) (hop : (s.threads t).op = .get columns) :
    ∀ level pid (stack : List Nat), s.tree.At low pid level (buildKey columns 0) →
      stack.length + level ≤ 16 →
      ∃ stack' leaf, btreeSystem.Steps (Solo t) (s.moved t stack (.descend pid))
        (s.moved t stack' (.scan leaf [])) ∧ s.tree.At low leaf 0 (buildKey columns 0) := by
  intro level
  induction level with
  | zero =>
      intro pid stack hat _
      obtain ⟨pg, hp, hlevel, -⟩ := page_of_at hat
      refine ⟨stack, pid, step_run_moved ?_, hat⟩
      show (s.moved t stack (.descend pid)).descendStep t pid = _
      refine bind_ok.mpr ⟨pg, getNode_moved h hp _ _, ?_⟩
      simp only [hlevel, if_true, moved_threads, hop, goto_eq]
  | succ level ih =>
      -- on one level the walk goes right
      intro pid
      induction hn : s.tree.toTheRight low s.nextPid pid using Nat.strong_induction_on
        generalizing pid with
      | _ n ihn =>
      intro stack hat hdepth
      obtain ⟨pg, hp, hlevel, hlow⟩ := page_of_at hat
      have hpos : pg.level ≠ 0 := by omega
      have hlay := BtreePage.layout_inter hpos
      by_cases hsplit : BtreeVarlenLayoutIntermediate.hasSplit pg (buildKey columns 0) = true
      · obtain ⟨b, hb, -⟩ := Layout.hasSplit_iff.mp hsplit
        have hlt := h.toTheRight_lt hp (b := b) (by rw [← hlay] at hb; exact hb)
        obtain ⟨hright, -⟩ := h.at_right hp hlay hsplit
        obtain ⟨stack', leaf, hsteps, hleaf⟩ :=
          ihn _ (hn ▸ hlt) pg.rlink rfl stack (hlevel ▸ hright) hdepth
        refine ⟨stack', leaf, (step_run_moved ?_).trans hsteps, hleaf⟩
        show (s.moved t stack (.descend pid)).descendStep t pid = _
        refine bind_ok.mpr ⟨pg, getNode_moved h hp _ _, ?_⟩
        simp only [if_neg hpos, moved_threads, hop, IndexOp.key, hsplit, if_true, goto_eq]
      · -- down to the child
        obtain ⟨c, es, hcons⟩ := (h.nodeInv hp).leftmost (Nat.pos_of_ne_zero hpos)
        have hsorted := h.sorted hp
        have hentries : pg.node.entries = Layout.entries .inter pg := by
          show pg.layout.entries pg = _
          rw [hlay]
        rw [hlay] at hsorted
        rw [hentries] at hcons
        obtain ⟨child, hchild⟩ := BtreeVarlenLayoutIntermediate.get_isOk hsorted hcons hlow
        obtain ⟨hat', -⟩ := h.at_child hp hpos hchild
        rw [hlevel] at hat'
        obtain ⟨stack', leaf, hsteps, hleaf⟩ := ih child (pid :: stack) hat' (by simp; omega)
        refine ⟨stack', leaf, (step_run_moved ?_).trans hsteps, hleaf⟩
        show (s.moved t stack (.descend pid)).descendStep t pid = _
        refine bind_ok.mpr ⟨pg, getNode_moved h hp _ _, ?_⟩
        have hpush : (s.moved t stack (.descend pid)).push t pid =
            .ok ((s.moved t stack (.descend pid)).setStack t (pid :: stack)) := by
          refine bind_ok.mpr ⟨(), assertThat_ok.mpr ?_, ?_⟩
          · rw [moved_threads]
            simp
            omega
          · rw [moved_threads]
        simp only [if_neg hpos, moved_threads, hop, IndexOp.key, if_neg hsplit, hchild, hpush]
        exact congrArg Except.ok (setStack_goto _ _)

/-- The walk over the leaves ends, with every key that is there. -/
theorem steps_scan (h : Shape s low S) (hS : PrefixFree S) (hcol : S columns)
    (hop : (s.threads t).op = .get columns) (stack : List Nat) :
    ∀ pid results, (∃ pg, s.pages pid = some pg ∧ pg.level = 0) →
      Ahead s.tree.HasKey columns results (low pid) → Behind columns results (low pid) →
      (∀ u ∈ results, s.tree.HasKey (buildKey columns u)) →
      ∃ results', btreeSystem.Steps (Solo t) (s.moved t stack (.scan pid results))
        (s.moved t stack (.done results')) ∧ results'.Pairwise (· < ·) ∧
        ∀ u, u ∈ results' ↔ u < 2 ^ 64 ∧ s.tree.HasKey (buildKey columns u) := by
  intro pid
  induction hn : s.tree.toTheRight low s.nextPid pid using Nat.strong_induction_on
    generalizing pid with
  | _ n ihn =>
  rintro results ⟨pg, hp, hlevel⟩ hahead hbehind hsound
  have hlay := BtreePage.layout_leaf hlevel
  by_cases hsplit : BtreeVarlenLayoutLeaf.hasSplit pg (buildKey columns 0) = true
  · -- the columns start further right
    obtain ⟨b, hb, hle⟩ := Layout.hasSplit_iff.mp hsplit
    rw [← hlay] at hb
    obtain ⟨hat, hlowr, hlt⟩ := h.inv.at_right (tree_nodes hp) hb hle
    obtain ⟨rpg, hrp, hrlevel, -⟩ := page_of_at hat
    obtain ⟨results', hsteps, hres⟩ := ihn _ (hn ▸ h.toTheRight_lt hp hb) pg.rlink rfl results
      ⟨rpg, hrp, hrlevel.trans hlevel⟩ (.of_le (hlowr.le.trans hle)) (hbehind.mono hlt.le) hsound
    refine ⟨results', (step_run_moved ?_).trans hsteps, hres⟩
    show (s.moved t stack (.scan pid results)).scanStep t pid results = _
    refine bind_ok.mpr ⟨pg, getNode_moved h hp _ _, ?_⟩
    simp only [moved_threads, hop, IndexOp.key, hsplit, if_true, goto_eq]
  · obtain ⟨hpairwise, hbehind', hfound⟩ := hbehind.leaf h hp hlevel
    have hsound' : ∀ u ∈ results ++ (BtreeVarlenLayoutLeaf.get pg (buildKey columns 0)).1,
        s.tree.HasKey (buildKey columns u) := by
      intro u hu
      rcases List.mem_append.mp hu with hu | hu
      · exact hsound u hu
      · exact (hfound u hu).2
    have hbound : ∀ u ∈ results ++ (BtreeVarlenLayoutLeaf.get pg (buildKey columns 0)).1,
        u < 2 ^ 64 := by
      intro u hu
      rcases List.mem_append.mp hu with hu | hu
      · exact (hbehind.lt u hu).1
      · exact (hfound u hu).1
    by_cases hproceed : (BtreeVarlenLayoutLeaf.get pg (buildKey columns 0)).2 = true
    · -- the fence has the columns: read the right link and go on
      have hprefix : BtreeVarlenLayoutLeaf.highPrefixCmp pg (buildKey columns 0) = true := hproceed
      obtain ⟨b, hb, -⟩ := BtreeVarlenLayoutLeaf.highPrefixCmp_iff.mp hprefix
      rw [← hlay] at hb
      obtain ⟨hat, hlowr, -⟩ := h.inv.at_right (tree_nodes hp) hb le_rfl
      obtain ⟨rpg, hrp, hrlevel, -⟩ := page_of_at hat
      have hahead' : Ahead s.tree.HasKey columns
          (results ++ (BtreeVarlenLayoutLeaf.get pg (buildKey columns 0)).1) (low pg.rlink) := by
        intro u hu hk
        refine (hahead.leaf h hS hcol hp hlevel (fun _ hk => hk) hu hk).imp_right ?_
        rintro ⟨b', hb', hle⟩
        obtain rfl := Option.some.inj (hb.symm.trans hb')
        exact hlowr.le.trans hle
      obtain ⟨results', hsteps, hres⟩ := ihn _ (hn ▸ h.toTheRight_lt hp hb) pg.rlink rfl _
        ⟨rpg, hrp, hrlevel.trans hlevel⟩ hahead' (by
          have := hbehind' b hb
          rwa [← hlowr] at this) hsound'
      have hread : btreeSystem.Steps (Solo t) (s.moved t stack (.scan pid results))
          (s.moved t stack (.follow pid
            (results ++ (BtreeVarlenLayoutLeaf.get pg (buildKey columns 0)).1))) := by
        refine step_run_moved ?_
        show (s.moved t stack (.scan pid results)).scanStep t pid results = _
        refine bind_ok.mpr ⟨pg, getNode_moved h hp _ _, ?_⟩
        simp only [moved_threads, hop, IndexOp.key, if_neg hsplit, hproceed, if_true, goto_eq]
      refine ⟨results', (hread.trans (step_run_moved ?_)).trans hsteps, hres⟩
      show (s.moved t stack (.follow pid _)).followStep t pid _ = _
      refine bind_ok.mpr ⟨pg, getNode_moved h hp _ _, ?_⟩
      have hne : pg.rlink ≠ undefinedPage := (h.lt_undefined hrp).1
      rw [if_neg hne, goto_eq, moved_threads]
    · refine ⟨_, step_run_moved ?_, hpairwise, fun u => ⟨fun hu => ⟨hbound u hu, hsound' u hu⟩, ?_⟩⟩
      · show (s.moved t stack (.scan pid results)).scanStep t pid results = _
        refine bind_ok.mpr ⟨pg, getNode_moved h hp _ _, ?_⟩
        simp only [moved_threads, hop, IndexOp.key, if_neg hsplit, if_neg hproceed, goto_eq]
      · rintro ⟨hu, hk⟩
        exact hahead.last h hS hcol hp hlevel (fun _ hk => hk) hsplit hproceed hu hk

/-- A `Get` that runs alone ends, and returns the ids of the keys with its
columns, each once and in increasing order. The stack holds 16 page ids. -/
theorem get_returns (h : Shape s low S) (hS : PrefixFree S) (hcol : S columns)
    (hidle : (s.threads t).pc = .idle) (hdepth : ∀ pg ∈ s.pages s.rootId, pg.level ≤ 16) :
    ∃ s₀ s' results, s.step (.invoke t (.get columns)) = some s₀ ∧
      btreeSystem.Steps (Solo t) s₀ s' ∧ (s'.threads t).pc = .done results ∧
      results.Pairwise (· < ·) ∧
      ∀ u, u ∈ results ↔ u < 2 ^ 64 ∧ s.tree.HasKey (buildKey columns u) := by
  obtain ⟨s₀, hs₀⟩ : ∃ s₀, s.step (.invoke t (.get columns)) = some s₀ := by
    simp [step, hidle]
  have hinvoke := hs₀
  simp only [step, hidle, if_true, Option.some.injEq] at hs₀
  have hop : (s₀.threads t).op = .get columns := by simp [← hs₀]
  have hstart : s₀.moved t [] .loadRoot = s₀ := by simp [moved, ← hs₀]
  have hshape : Shape s₀ low S := h.congr (by rw [← hs₀]) (by rw [← hs₀]) (by rw [← hs₀])
    (by rw [← hs₀]; exact h.limit)
  have htree : s₀.tree = s.tree := tree_congr (by rw [← hs₀]) (by rw [← hs₀])
  obtain ⟨n, hn, -, -⟩ := h.inv.root
  obtain ⟨rpg, hrp, rfl⟩ := pages_of_tree hn
  have hat : s₀.tree.At low s₀.rootId rpg.level (buildKey columns 0) := by
    have hroot : s₀.rootId = s.rootId := by rw [← hs₀]
    rw [htree, hroot]
    exact h.inv.at_root _ hn
  obtain ⟨stack, leaf, hdescend, hleaf⟩ := steps_descend hshape hop rpg.level s₀.rootId [] hat (by
    have := hdepth rpg hrp
    simp
    omega)
  obtain ⟨pg, hp, hlevel, hlow⟩ := page_of_at hleaf
  obtain ⟨results, hscan, hpairwise, hmem⟩ := steps_scan hshape hS hcol hop stack leaf []
    ⟨pg, hp, hlevel⟩ (.of_le hlow) .nil (by simp)
  have hload : btreeSystem.Steps (Solo t) s₀ (s₀.moved t [] (.descend s₀.rootId)) := by
    have hstep : btreeSystem.Steps (Solo t) (s₀.moved t [] .loadRoot)
        (s₀.moved t [] (.descend s₀.rootId)) := by
      refine step_run_moved ?_
      show Except.ok ((s₀.moved t [] .loadRoot).goto t (.descend s₀.rootId)) = _
      rw [goto_eq, moved_threads]
    rwa [hstart] at hstep
  exact ⟨s₀, _, results, hinvoke, (hload.trans hdescend).trans hscan, by rw [moved_threads],
    hpairwise, fun u => by rw [hmem, htree]⟩

end Alone

end BTreeIndex

end Db7
