import Db7.Index.NoWrap

/-!
# Separators and levels

A separator made by splitting a page of level `L` belongs into a page of level
`L + 1`. `PropagateInsert` finds that page on the stack, where it is right, or
after a second descent (`DropToLevel(key, drop_level)`) when the stack is empty
and somebody else has made a new root. The second descent stops at the first
page of level at most `drop_level`. Nothing makes sure that a root on or above
that level exists by then: the thread that split the old root may not have made
the new one yet, while its right half is already reachable and splits again.

* **separator_levels**: as long as each second descent finds a root on or above
  its level and no offset wraps, separators go to the right level, the keys below an
  entry lie between the separators, and `Get` finds every inserted pair;
* **separator_in_leaf**: on the schedule of two threads that the above describes
  a separator is about to be inserted into a leaf.
-/

namespace Db7

open Lib Lib.BLink Function KeyNormEncoder
open BtreeVarlenLayoutLeaf (KeyOf)

namespace BTreeIndex

/-- The separators on their way up go one level above the page whose split made
them. -/
def SeparatorsRise (s : BTreeIndex) : Prop :=
  ∀ t, match (s.threads t).pc with
    | .inter _ value pid => ∃ c p, s.pages value = some c ∧ s.pages pid = some p ∧
        p.level = c.level + 1
    | .root level _ pid newPid =>
        ∃ l r, s.pages pid = some l ∧ s.pages newPid = some r ∧ l.level = level ∧ r.level = level
    | _ => True

/-- Child pointers lead one level down. -/
def ChildrenBelow (s : BTreeIndex) : Prop :=
  ∀ p pg, s.pages p = some pg → 0 < pg.level → ∀ e ∈ pg.node.entries,
    ∃ c, s.pages e.2 = some c ∧ c.level + 1 = pg.level

/-- The keys below a child lie between its separators. -/
def KeysBetween (s : BTreeIndex) : Prop :=
  ∀ p pg, s.pages p = some pg → 0 < pg.level → ∀ as e bs, pg.node.entries = as ++ e :: bs →
    ∀ k, s.tree.Below e.2 k → e.1 ≤ k ∧ (∀ e' ∈ bs, k < e'.1) ∧ ∀ b ∈ pg.node.high, k < b

/-- When no call is under way, a `Get` by any thread ends and finds each pair
whose insert has returned. -/
def PairsFound (s : BTreeIndex) (S : Key → Prop) : Prop :=
  s.Idle → (∀ pg ∈ s.pages s.rootId, pg.level ≤ 16) →
    ∀ columns tid, S columns → tid < 2 ^ 64 → buildKey columns tid ∈ s.present →
      ∀ t, ∃ s₀ s' results, s.step (.invoke t (.get columns)) = some s₀ ∧
        btreeSystem.Steps (Solo t) s₀ s' ∧ (s'.threads t).pc = .done results ∧ tid ∈ results

section Sound

variable {s : BTreeIndex} {low : Nat → Key} {S : Key → Prop}

theorem Sound.separatorsRise (h : Sound s low S) : s.SeparatorsRise := by
  intro t
  have hpc := h.pcOk t
  unfold PcOk at hpc
  split <;> rename_i heq
  · rw [heq] at hpc
    obtain ⟨-, l, ⟨m, hm, hmlevel, -⟩, ⟨n, hn, hnlevel, -⟩, -⟩ := hpc
    obtain ⟨c, hc, rfl⟩ := pages_of_tree hm
    obtain ⟨p, hp, rfl⟩ := pages_of_tree hn
    have hclevel : c.level = l := hmlevel
    exact ⟨c, p, hc, hp, by rw [hclevel]; exact hnlevel⟩
  · rw [heq] at hpc
    obtain ⟨-, ⟨n, hn, hnlevel⟩, ⟨m, hm, hmlevel, -⟩, -⟩ := hpc
    obtain ⟨l, hl, rfl⟩ := pages_of_tree hn
    obtain ⟨r, hr, rfl⟩ := pages_of_tree hm
    exact ⟨l, r, hl, hr, hnlevel, hmlevel⟩
  · trivial

theorem Shape.childrenBelow (h : Shape s low S) : s.ChildrenBelow := by
  intro p pg hp hlevel e he
  obtain ⟨n, hn, hlvl, -⟩ := (h.nodeInv hp).children hlevel e he
  obtain ⟨c, hc, rfl⟩ := pages_of_tree hn
  exact ⟨c, hc, hlvl⟩

theorem Shape.keysBetween (h : Shape s low S) : s.KeysBetween := by
  intro p pg hp hlevel as e bs hes k hk
  exact h.inv.below_entry (tree_nodes hp) hlevel hes hk

theorem Sound.pairsFound (h : Sound s low S) (hledger : Ledger s S) (hS : PrefixFree S) :
    s.PairsFound S := by
  intro hidle hdepth columns tid hcol htid hpresent t
  obtain ⟨s₀, s', results, hinvoke, hrun, hdone, -, hmem⟩ :=
    get_returns h.shape hS hcol (hidle t) hdepth
  exact ⟨s₀, s', results, hinvoke, hrun, hdone, (hmem tid).mpr ⟨htid, hledger.present _ hpresent⟩⟩

end Sound

/-- The claim's condition on a step: an insert of a new pair or a lookup, and a
second descent that finds a root on or above its level. -/
def InsertsRooted (S : Key → Prop) (s : BTreeIndex) (a : BtreeAction) : Prop :=
  InsertsOnce S s a ∧ s.RootAbove a

/-- **Separators keep to their level** in every run of inserts by any number of
threads whose second descents find a root on or above their level, and in which no
offset wraps. -/
theorem separator_levels {S : Key → Prop} (hS : PrefixFree S) {s : BTreeIndex}
    (hs : btreeSystem.ReachableBy (WrapFree (InsertsRooted S)) s) :
    s.SeparatorsRise ∧ s.ChildrenBelow ∧ s.KeysBetween ∧ s.PairsFound S := by
  obtain ⟨low, hsound, hledger⟩ := sound_ledger (reachable_of_wrapFree hs)
  exact ⟨hsound.separatorsRise, hsound.shape.childrenBelow, hsound.shape.keysBetween,
    hsound.pairsFound hledger hS⟩

/-- `RootAbove`, evaluated. -/
def rootIsAbove (s : BTreeIndex) : BtreeAction → Bool
  | .run t =>
      match (s.threads t).pc with
      | .reloadRoot dropLevel _ _ => (s.pages s.rootId).all fun pg => decide (dropLevel ≤ pg.level)
      | _ => true
  | _ => true

theorem rootIsAbove_iff (s : BTreeIndex) (a : BtreeAction) :
    s.rootIsAbove a = true ↔ s.RootAbove a := by
  unfold rootIsAbove RootAbove
  cases a with
  | run t =>
      dsimp only
      cases (s.threads t).pc with
      | reloadRoot dropLevel sentinel newPid => cases s.pages s.rootId <;> simp
      | _ => exact iff_of_true rfl trivial
  | _ => exact iff_of_true rfl trivial

instance (s : BTreeIndex) (a : BtreeAction) : Decidable (s.RootAbove a) :=
  decidable_of_iff (s.rootIsAbove a = true) (s.rootIsAbove_iff a)

instance (S : Key → Prop) [DecidablePred S] (s : BTreeIndex) (a : BtreeAction) :
    Decidable (InsertsRooted S s a) :=
  inferInstanceAs (Decidable (_ ∧ _))

/-- Where the separator of a thread is about to go. -/
def target (s : BTreeIndex) (t : Nat) : Option (Nat × Nat) :=
  match (s.threads t).pc with
  | .inter _ value pid => some (value, pid)
  | _ => none

/-- Thread 1 has loaded the root when thread 0 splits it, makes the new root and fills the
right half. Thread 1 splits the right half, finds the root changed, and descends again. -/
def rootMade : List BtreeAction :=
  ((List.range 9).flatMap fun i => insertWide 0 (i + 1) 3 ++ [.ret 0]) ++ insertWide 1 15 2 ++
    insertWide 0 10 4 ++ [.ret 0] ++ ((List.range 4).flatMap fun i =>
      insertWide 0 (i + 11) 4 ++ [.ret 0]) ++
    List.replicate 5 (.run 1)

theorem run_rootMade : (btreeSystem.exec (WrapFree (InsertsRooted Wide)) init rootMade).map
    (fun s => (s.target 1, s.rootId, s.present.length)) = some (some (4, 3), 3, 14) := by
  decide +kernel

/-- The separator of the second split goes into the new root. -/
theorem separator_levels_rootMade : ∃ s, btreeSystem.ReachableBy (WrapFree (InsertsRooted Wide)) s ∧
    s.target 1 = some (4, s.rootId) ∧ s.present.length = 14 ∧
      s.SeparatorsRise ∧ s.ChildrenBelow ∧ s.KeysBetween ∧ s.PairsFound Wide := by
  obtain ⟨s, hexec, hview⟩ := Option.map_eq_some_iff.mp run_rootMade
  obtain ⟨htarget, hview⟩ := Prod.mk.inj hview
  obtain ⟨hroot, hlength⟩ := Prod.mk.inj hview
  have hs : btreeSystem.ReachableBy (WrapFree (InsertsRooted Wide)) s :=
    ⟨init, rfl, TSys.Steps.of_exec _ hexec⟩
  exact ⟨s, hs, by rw [htarget, hroot], hlength, separator_levels prefixFree_wide hs⟩

/-! ## A separator in a leaf -/

/-- Thread 0 fills the root leaf and splits it, but has not made the new root.
Thread 1 fills the right half and splits it. It finds the root changed by
nobody, descends again, and stops at the old root, a leaf. -/
def rootPending : List BtreeAction :=
  ((List.range 9).flatMap fun i => insertWide 0 (i + 1) 3 ++ [.ret 0]) ++ insertWide 0 10 3 ++
    ((List.range 4).flatMap fun i => insertWide 1 (i + 11) 4 ++ [.ret 1]) ++
    insertWide 1 15 4 ++ List.replicate 3 (.run 1)

theorem run_rootPending : (btreeSystem.exec (WrapFree (InsertsOnce Wide)) init rootPending).map
    (fun s => (s.target 1, (s.pages 3).map BtreePage.level, (s.pages 1).map BtreePage.level)) =
      some (some (3, 1), some 0, some 0) := by
  decide +kernel

/-- Two threads that insert suffice to send a separator into a leaf. -/
theorem separator_in_leaf : ¬ ∀ S, PrefixFree S → ∀ s,
    btreeSystem.ReachableBy (WrapFree (InsertsOnce S)) s → s.SeparatorsRise := by
  intro hall
  obtain ⟨s, hexec, hview⟩ := Option.map_eq_some_iff.mp run_rootPending
  obtain ⟨htarget, hview⟩ := Prod.mk.inj hview
  obtain ⟨hvalue, hpid⟩ := Prod.mk.inj hview
  have hrise := hall Wide prefixFree_wide s ⟨init, rfl, TSys.Steps.of_exec _ hexec⟩ 1
  unfold target at htarget
  split at htarget
  · rename_i sentinel value pid hpc
    obtain ⟨rfl, rfl⟩ := Prod.mk.inj (Option.some.inj htarget)
    rw [hpc] at hrise
    obtain ⟨c, p, hc, hp, hlevel⟩ := hrise
    rw [hc] at hvalue
    rw [hp] at hpid
    have hc0 : c.level = 0 := by simpa using hvalue
    have hp0 : p.level = 0 := by simpa using hpid
    omega
  · simp at htarget

end BTreeIndex

end Db7
