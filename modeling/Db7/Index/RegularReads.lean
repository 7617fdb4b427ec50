import Db7.Index.Updates
import Db7.Index.Readers

/-!
# Lookups beside any number of updating threads

The ids that a `Get` returns are collected leaf by leaf, while others insert, delete and split. They
are not the ids of one moment, but (`get_regular`) a pair that is in the leaves during the whole
call is returned, and a pair that is in none of them during the whole call is not.

* **not passed** (`Ahead`): the pair is among the results, or lies at or right of the reader's
  place;
* **not taken** (`results_step`): what comes to the results is in a leaf at that moment.
-/

namespace Db7

open Lib Lib.BLink Function KeyNormEncoder

/-- The ids that a `Get` has collected. -/
def BtreePc.results : BtreePc → List Nat
  | scan _ results | follow _ results | done results => results
  | _ => []

namespace BTreeIndex

/-- The reader has not passed the pair. -/
def NotPassed (tr : LinkTree Key) (low : Nat → Key) (columns : Key) (tid : Nat) (pc : BtreePc) :
    Prop :=
  match pc with
  | .scan pid results => Ahead (· = buildKey columns tid) columns results (low pid)
  | .follow pid results => ∀ n, tr.nodes pid = some n → ∀ b ∈ n.high,
      Ahead (· = buildKey columns tid) columns results b
  | .done results => tid ∈ results
  | _ => True

section Reader

variable {s s' : BTreeIndex} {low low' : Nat → Key} {S : Key → Prop} {t tid : Nat} {columns : Key}

theorem NotPassed.grows {tr tr' : LinkTree Key} (hg : LinkTree.Grows tr tr' low low')
    {th : BtreeThread} (hok : PcOk tr low S th) (h : NotPassed tr low columns tid th.pc) :
    NotPassed tr' low' columns tid th.pc := by
  cases hpc : th.pc with
  | scan pid results =>
      simp only [PcOk, hpc] at hok
      rw [hpc] at h
      obtain ⟨-, n, hn, -⟩ := hok
      simp only [NotPassed] at h ⊢
      rwa [hg.low pid n hn]
  | follow pid results =>
      simp only [PcOk, hpc] at hok
      rw [hpc] at h
      obtain ⟨-, n, hn, -, b₀, hb₀⟩ := hok
      intro n' hn' b hb
      obtain ⟨n'', hn'', -, hhigh⟩ := hg.node pid n hn
      obtain rfl := Option.some.inj (hn'.symm.trans hn'')
      obtain ⟨b', hb', hle⟩ := hhigh b₀ hb₀
      obtain rfl := Option.some.inj (hb.symm.trans hb')
      exact (h n hn b₀ hb₀).mono hle
  | done results =>
      rw [hpc] at h
      exact h
  | _ => trivial

/-- A step of the reader over leaves that hold the pair. -/
theorem NotPassed.run (h : Shape s low S) (hS : PrefixFree S) (hcol : S columns)
    (htid : tid < 2 ^ 64)
    (hop : (s.threads t).op = .get columns) (hread : (s.threads t).pc.reading = true)
    (hok : PcOk s.tree low S (s.threads t)) (hkey : s.tree.HasKey (buildKey columns tid))
    (hp : NotPassed s.tree low columns tid (s.threads t).pc)
    (hs : s.runThread t (s.threads t).pc = .ok s') :
    NotPassed s'.tree low columns tid (s'.threads t).pc := by
  have hopkey : (s.threads t).op.key = buildKey columns 0 := by rw [hop]; rfl
  have hK : ∀ k, k = buildKey columns tid → s.tree.HasKey k := by
    rintro k rfl
    exact hkey
  cases hpc : (s.threads t).pc with
  | idle => simp [hpc, runThread] at hs
  | done => simp [hpc, runThread] at hs
  | loadRoot =>
      rw [hpc] at hs
      obtain rfl := Except.ok.inj hs
      rw [goto_eq, moved_threads]
      trivial
  | descend pid =>
      rw [hpc] at hs
      simp only [PcOk, hpc] at hok
      obtain ⟨level, hat, -⟩ := hok
      obtain ⟨pg, hpg, hcase⟩ := descendStep_cases hs
      rcases hcase with ⟨-, _, -, rfl⟩ | ⟨-, hnot, -⟩ | ⟨-, -, rfl⟩ | ⟨-, child, -, rfl⟩
      · -- the leaf starts at or left of the columns
        obtain ⟨-, -, -, hlow⟩ := page_of_at hat
        rw [hopkey] at hlow
        rw [moved_threads]
        exact Ahead.of_le (K := (· = buildKey columns tid)) hlow
      · exact absurd hop (hnot columns)
      · rw [moved_threads]
        trivial
      · rw [moved_threads]
        trivial
  | scan pid results =>
      rw [hpc] at hs hp
      simp only [PcOk, hpc] at hok
      obtain ⟨-, n, hn, hlevel⟩ := hok
      have hahead : Ahead (· = buildKey columns tid) columns results (low pid) := hp
      obtain ⟨pg, hpg, hcase⟩ := scanStep_cases hs
      obtain rfl := Option.some.inj ((tree_nodes hpg).symm.trans hn)
      have hlay := BtreePage.layout_leaf hlevel
      rw [hopkey] at hcase
      rcases hcase with ⟨hsplit, rfl⟩ | ⟨hsplit, -, rfl⟩ | ⟨hsplit, hproceed, rfl⟩ <;>
        rw [moved_threads]
      · obtain ⟨b, hb, hle⟩ := Layout.hasSplit_iff.mp hsplit
        rw [← hlay] at hb
        obtain ⟨-, hlowr, -⟩ := h.inv.at_right (tree_nodes hpg) hb hle
        have hlowr' : low pg.rlink = b := hlowr
        exact Ahead.of_le (K := (· = buildKey columns tid)) (hlowr' ▸ hle)
      · intro n' hn' b hb u hu hk
        obtain rfl := Option.some.inj (hn'.symm.trans (tree_nodes hpg))
        refine (hahead.leaf h hS hcol hpg hlevel hK hu hk).imp_right ?_
        rintro ⟨b', hb', hle⟩
        obtain rfl := Option.some.inj (hb.symm.trans hb')
        exact hle
      · exact hahead.last h hS hcol hpg hlevel hK hsplit hproceed htid rfl
  | follow pid results =>
      rw [hpc] at hs hp
      simp only [PcOk, hpc] at hok
      obtain ⟨-, n, hn, -, b, hb⟩ := hok
      obtain ⟨pg, hpg, hcase⟩ := followStep_cases hs
      obtain rfl := Option.some.inj ((tree_nodes hpg).symm.trans hn)
      obtain ⟨hat, hlowr, -⟩ := h.inv.at_right (tree_nodes hpg) hb le_rfl
      obtain ⟨rpg, hrp, -, -⟩ := page_of_at hat
      rcases hcase with ⟨hnone, rfl⟩ | ⟨-, rfl⟩
      · exact absurd hnone (h.lt_undefined hrp).1
      · rw [moved_threads]
        have hlowr' : low pg.rlink = b := hlowr
        show Ahead (· = buildKey columns tid) columns results (low pg.rlink)
        rw [hlowr']
        exact hp _ hn b hb
  | leaf pid => simp [hpc, BtreePc.reading] at hread
  | root level sentinel pid newPid => simp [hpc, BtreePc.reading] at hread
  | reloadRoot dropLevel sentinel newPid => simp [hpc, BtreePc.reading] at hread
  | redescend dropLevel sentinel newPid pid level => simp [hpc, BtreePc.reading] at hread
  | inter sentinel value pid => simp [hpc, BtreePc.reading] at hread

/-- What comes to the results is in a leaf. -/
theorem results_step (h : Shape s low S) (hop : (s.threads t).op = .get columns)
    (hread : (s.threads t).pc.reading = true) (hok : PcOk s.tree low S (s.threads t))
    (hs : s.runThread t (s.threads t).pc = .ok s') :
    ∀ u ∈ (s'.threads t).pc.results, u ∈ (s.threads t).pc.results ∨
      s.tree.HasKey (buildKey columns u) := by
  have hopkey : (s.threads t).op.key = buildKey columns 0 := by rw [hop]; rfl
  cases hpc : (s.threads t).pc with
  | idle => simp [hpc, runThread] at hs
  | done => simp [hpc, runThread] at hs
  | loadRoot =>
      rw [hpc] at hs
      obtain rfl := Except.ok.inj hs
      simp [goto_eq, moved_threads, BtreePc.results]
  | descend pid =>
      rw [hpc] at hs
      obtain ⟨pg, -, hcase⟩ := descendStep_cases hs
      rcases hcase with ⟨-, _, -, rfl⟩ | ⟨-, -, rfl⟩ | ⟨-, -, rfl⟩ | ⟨-, child, -, rfl⟩ <;>
        simp [moved_threads, BtreePc.results]
  | scan pid results =>
      rw [hpc] at hs
      simp only [PcOk, hpc] at hok
      obtain ⟨-, n, hn, hlevel⟩ := hok
      obtain ⟨pg, hpg, hcase⟩ := scanStep_cases hs
      obtain rfl := Option.some.inj ((tree_nodes hpg).symm.trans hn)
      have hlay := BtreePage.layout_leaf hlevel
      have hentries : pg.node.entries = Layout.entries .leaf pg := by
        show pg.layout.entries pg = _
        rw [hlay]
      have hsound := (BtreeVarlenLayoutLeaf.get_sound (p := columns) (hlay ▸ h.sorted hpg)
        (hentries ▸ (h.keys pid pg hpg).leaf hlevel)).1
      have hfound : ∀ u ∈ results ++ (BtreeVarlenLayoutLeaf.get pg (buildKey columns 0)).1,
          u ∈ results ∨ s.tree.HasKey (buildKey columns u) := by
        intro u hu
        refine (List.mem_append.mp hu).imp_right fun hu => ?_
        obtain ⟨-, e, he, heq⟩ := hsound u hu
        exact ⟨pid, _, tree_nodes hpg, hlevel, e, hentries ▸ he, heq⟩
      rw [hopkey] at hcase
      rcases hcase with ⟨-, rfl⟩ | ⟨-, -, rfl⟩ | ⟨-, -, rfl⟩ <;> rw [moved_threads]
      · exact fun u hu => .inl hu
      · exact hfound
      · exact hfound
  | follow pid results =>
      rw [hpc] at hs
      obtain ⟨pg, -, hcase⟩ := followStep_cases hs
      rcases hcase with ⟨-, rfl⟩ | ⟨-, rfl⟩ <;> rw [moved_threads] <;> exact fun u hu => .inl hu
  | leaf pid => simp [hpc, BtreePc.reading] at hread
  | root level sentinel pid newPid => simp [hpc, BtreePc.reading] at hread
  | reloadRoot dropLevel sentinel newPid => simp [hpc, BtreePc.reading] at hread
  | redescend dropLevel sentinel newPid pid level => simp [hpc, BtreePc.reading] at hread
  | inter sentinel value pid => simp [hpc, BtreePc.reading] at hread

/-! ## The whole call -/

/-- A step during a call of `t`, with the pair in the leaves or not. -/
def During (S : Key → Prop) (t : Nat) (C : BTreeIndex → Prop) (s : BTreeIndex) (a : BtreeAction) :
    Prop :=
  UpdatesApart S s a ∧ a ≠ .ret t ∧ C s

/-- What the steps of a reader keep while others do what they like. -/
theorem reader_run {C : BTreeIndex → Prop} {Q : LinkTree Key → (Nat → Key) → BtreePc → Prop}
    (hgrows : ∀ {tr tr' low low'}, LinkTree.Grows tr tr' low low' → ∀ {th : BtreeThread},
      PcOk tr low S th →
      Q tr low th.pc → Q tr' low' th.pc)
    (hrun : ∀ {s s' low}, Shape s low S → (s.threads t).op = .get columns →
      (s.threads t).pc.reading = true →
      PcOk s.tree low S (s.threads t) → C s → Q s.tree low (s.threads t).pc →
      s.runThread t (s.threads t).pc = .ok s' → Q s'.tree low (s'.threads t).pc)
    (hr : btreeSystem.ReachableBy (UpdatesApart S) s) (hop : (s.threads t).op = .get columns)
    (hread : (s.threads t).pc.reading = true) (hne : (s.threads t).pc ≠ .idle)
    (hstart : ∀ low, Q s.tree low (s.threads t).pc) (h : btreeSystem.Steps (During S t C) s s') :
    ∃ low, Q s'.tree low (s'.threads t).pc := by
  have hall : (s'.threads t).op = .get columns ∧ (s'.threads t).pc.reading = true ∧
      (s'.threads t).pc ≠ .idle ∧
      ∃ low, Sound s' low S ∧ Accounts s' S ∧ Q s'.tree low (s'.threads t).pc := by
    induction h with
    | refl =>
        obtain ⟨low, hsound, hacc⟩ := sound_updates hr
        exact ⟨hop, hread, hne, low, hsound, hacc, hstart low⟩
    | @tail u s' a _ hc hs ih =>
        obtain ⟨hop, hread, hne, low, hsound, hacc, hq⟩ := ih
        obtain ⟨hapart, hret, hC⟩ := hc
        cases a with
        | invoke v op =>
            have hi := invoked_of_step hs
            have hv : t ≠ v := by
              rintro rfl
              exact hne hi.idle
            rw [hi.others t hv, hi.tree]
            exact ⟨hop, hread, hne, low, hsound.invoke hs, hacc.invoke hapart hs, hq⟩
        | ret v =>
            have hr := returned_of_step hs
            have hv : t ≠ v := by
              rintro rfl
              exact hret rfl
            rw [hr.others t hv, hr.tree]
            exact ⟨hop, hread, hne, low, hsound.ret hs, hacc.ret hs, hq⟩
        | run v =>
            by_cases hv : t = v
            · -- the reader leaves the pages as they are
              subst hv
              have he := hsound.effect_read hop hread hs
              have hrun' := runThread_of_step hs
              obtain ⟨stack, pc, rfl, hread', hne'⟩ := reading_step hop hread hrun'
              have hq' := hrun hsound.shape hop hread (hsound.pcOk t) hC hq hrun'
              refine ⟨he.op.trans hop, ?_, ?_, low, hsound.of_effect he,
                hacc.run (hsound.pcOk t) he hs, hq'⟩
              · rw [moved_threads]
                exact hread'
              · rw [moved_threads]
                exact hne'
            · obtain ⟨low', he, hsound'⟩ := hsound.run (hacc.callOk v) hapart hs
              have hacc' := hacc.run (hsound.pcOk v) he hs
              rw [he.others t hv]
              exact ⟨hop, hread, hne, low', hsound', hacc', hgrows he.grows (hsound.pcOk t) hq⟩
  exact ⟨_, hall.2.2.2.choose_spec.2.2⟩

end Reader

instance (S : Key → Prop) (t : Nat) (C : BTreeIndex → Prop) [DecidablePred S] [DecidablePred C]
    (s : BTreeIndex)
    (a : BtreeAction) : Decidable (During S t C s a) := inferInstanceAs (Decidable (_ ∧ _ ∧ _))

/-- The pair is on page 1. -/
def OnFirstPage (k : Key) (s : BTreeIndex) : Prop :=
  ∃ pg ∈ s.pages 1, pg.level = 0 ∧ ∃ e ∈ pg.node.entries, e.1 = k

instance (k : Key) : DecidablePred (OnFirstPage k) := fun s => Option.decidableExistsMem (s.pages 1)

theorem OnFirstPage.hasKey {k : Key} {s : BTreeIndex} : s.OnFirstPage k → s.tree.HasKey k
  | ⟨_, hpg, hlevel, hentry⟩ => ⟨1, _, tree_nodes hpg, hlevel, hentry⟩

/-- Thread 0 puts a pair before the one that thread 1 looks up. -/
def insertDuringGet : List BtreeAction :=
  [.run 1, .invoke 0 (.insert (toBE 8 1) 4), .run 0, .run 0, .run 1, .run 0, .run 1]

end BTreeIndex

end Db7
