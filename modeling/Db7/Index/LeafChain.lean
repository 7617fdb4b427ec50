import Db7.Index.Updates

/-!
# The chains of right links

In every state of any run of updates, also between the page sections of a split, the pages of a
level make one chain of right links. That of the leaves starts at page 1, which the constructor
makes, and holds the pairs of the index in order.

These are the checks of `btree_index.tla`, there stated for the end of a run of inserts: each pair
is in one leaf (`CountCheck`, `DistinctCheck`), pages are sorted and lie between the separators
above them (`SortedCheck`), right links and children lead to pages (`ValidRlinksCheck`,
`LevelConsistencyCheck`).
-/

namespace Db7

open Lib Lib.BLink KeyNormEncoder

namespace BTreeIndex

/-- The pages from `first` on along the right links. -/
def rightOf (s : BTreeIndex) (first : Nat) : List Nat := s.tree.chain s.nextPid first

/-- The keys of the leaves in the order of their right links. -/
def leafKeys (s : BTreeIndex) : List Key := s.tree.keysOf (s.rightOf 1)

/-- The pages of a level are one chain of right links. -/
def Chained (s : BTreeIndex) (level first : Nat) : Prop :=
  (s.rightOf first).Nodup ∧ ∀ p, p ∈ s.rightOf first ↔ ∃ pg, s.pages p = some pg ∧ pg.level = level

section Chains

variable {s : BTreeIndex} {low : Nat → Key} {S : Key → Prop} {first : Nat} {n : Node Key}

theorem Shape.rightOf_visits (h : Shape s low S) (hn : s.tree.nodes first = some n)
    (hlow : low first = ⊥) :
    (∀ p, p ∈ s.rightOf first ↔ ∃ pg, s.pages p = some pg ∧ pg.level = n.level) ∧
      (s.rightOf first).Pairwise (low · < low ·) := by
  have hbound : ∀ q m, s.tree.nodes q = some m → q < s.nextPid := by
    intro q m hm
    obtain ⟨pg, hpg, -⟩ := pages_of_tree hm
    exact (h.pid q pg hpg).2
  obtain ⟨hmem, hsorted⟩ :=
    h.inv.chain_visits hbound hn (LinkTree.toTheRight_lt_bound (hbound _ _ hn))
  refine ⟨fun p => (hmem p).trans ⟨?_, ?_⟩, hsorted⟩
  · rintro ⟨m, hm, hlevel, -⟩
    obtain ⟨pg, hpg, rfl⟩ := pages_of_tree hm
    exact ⟨pg, hpg, hlevel⟩
  · rintro ⟨pg, hpg, hlevel⟩
    exact ⟨_, tree_nodes hpg, hlevel, hlow ▸ bot_le⟩

theorem Shape.chained (h : Shape s low S) (hn : s.tree.nodes first = some n)
    (hlow : low first = ⊥) :
    s.Chained n.level first := by
  obtain ⟨hmem, hsorted⟩ := h.rightOf_visits hn hlow
  exact ⟨hsorted.imp fun hlt heq => hlt.ne (congrArg low heq), hmem⟩

/-- Every level has its chain. -/
theorem Shape.levels_chained (h : Shape s low S) {rpg : BtreePage}
    (hr : s.pages s.rootId = some rpg) {level : Nat}
    (hlevel : level ≤ rpg.level) : ∃ first, s.Chained level first := by
  obtain ⟨p, n, hn, hnlevel, hlow⟩ :=
    h.inv.first (tree_nodes hr) (rpg.level - level) (Nat.sub_le _ _)
  have hroot : rpg.node.level = rpg.level := rfl
  obtain rfl : n.level = level := by omega
  exact ⟨p, h.chained hn hlow⟩

/-- The first leaf. -/
def FirstLeaf (tr : LinkTree Key) (low : Nat → Key) : Prop :=
  ∃ n, tr.nodes 1 = some n ∧ n.level = 0 ∧ low 1 = ⊥

theorem FirstLeaf.grows {tr tr' : LinkTree Key} {low low' : Nat → Key}
    (hg : LinkTree.Grows tr tr' low low') :
    FirstLeaf tr low → FirstLeaf tr' low' := by
  rintro ⟨n, hn, hlevel, hlow⟩
  obtain ⟨n', hn', hlevel', -⟩ := hg.node 1 n hn
  exact ⟨n', hn', hlevel'.trans hlevel, (hg.low 1 n hn).trans hlow⟩

/-- When no call is under way, the pairs in the leaves are those that were inserted and not
deleted. -/
theorem Accounts.hasKey_iff (h : Accounts s S) (hidle : s.Idle) (k : Key) :
    s.tree.HasKey k ↔ k ∈ s.begun := by
  refine ⟨fun hk => h.begun k none hk, fun hk => ?_⟩
  obtain ⟨x, hx⟩ := h.owned k hk
  cases x with
  | none => exact hx
  | some t =>
      have hx : HeldBy k (s.threads t) := hx
      cases hop : (s.threads t).op with
      | insert columns tid => simp [heldBy_insert hop, hidle t, BtreePc.searching] at hx
      | delete columns tid => simp [heldBy_delete hop, hidle t] at hx
      | get columns => exact absurd hx (heldBy_get hop k)

/-- **The leaves are one sorted chain** in every state of a run of updates and lookups in which no
section leaves its page, and so are the pages of each level above. -/
theorem leaf_chain (hs : btreeSystem.ReachableBy (OnPages (UpdatesApart S)) s) :
    s.leafKeys.Pairwise (· < ·) ∧ (∀ k, k ∈ s.leafKeys ↔ s.tree.HasKey k) ∧
      (s.Idle → s.leafKeys.Perm s.begun) ∧
      s.Chained 0 1 ∧ (∀ rpg ∈ s.pages s.rootId, ∀ level ≤ rpg.level, ∃ first,
        s.Chained level first) ∧
      s.ChildrenBelow ∧ s.KeysBetween := by
  obtain ⟨low, hsound, hacc, n, hn, hlevel, hlow⟩ :=
    sound_updates_grows (P := FirstLeaf) ⟨_, rfl, rfl, rfl⟩ FirstLeaf.grows
      (reachable_of_onPages hs)
  have hshape := hsound.shape
  obtain ⟨hmem, hsorted⟩ := hshape.rightOf_visits hn hlow
  have hlevels : ∀ p ∈ s.rightOf 1, ∃ n, s.tree.nodes p = some n ∧ n.level = 0 := by
    intro p hp
    obtain ⟨pg, hpg, hpl⟩ := (hmem p).mp hp
    exact ⟨_, tree_nodes hpg, hpl.trans hlevel⟩
  have hkeys : s.leafKeys.Pairwise (· < ·) := hshape.inv.keysOf_sorted hlevels hsorted
  have hleaves : ∀ k, k ∈ s.leafKeys ↔ s.tree.HasKey k := by
    intro k
    refine LinkTree.mem_keysOf.trans ⟨?_, ?_⟩
    · rintro ⟨p, hp, m, hm, hk⟩
      obtain ⟨pg, hpg, hpl⟩ := (hmem p).mp hp
      obtain rfl := Option.some.inj (hm.symm.trans (tree_nodes hpg))
      exact ⟨p, _, hm, hpl.trans hlevel, hk⟩
    · rintro ⟨p, m, hm, hpl, hk⟩
      obtain ⟨pg, hpg, rfl⟩ := pages_of_tree hm
      exact ⟨p, (hmem p).mpr ⟨pg, hpg, hpl.trans hlevel.symm⟩, _, hm, hk⟩
  refine ⟨hkeys, hleaves, fun hidle => ?_, hlevel ▸ hshape.chained hn hlow,
    fun rpg hr level hle => hshape.levels_chained hr hle, hshape.childrenBelow, hshape.keysBetween⟩
  refine (List.perm_ext_iff_of_nodup (hkeys.imp fun hlt => hlt.ne) hacc.nodup).mpr fun k => ?_
  rw [hleaves, hacc.hasKey_iff hidle]

end Chains

/-- The root leaf is full and splits; the new root is not made yet. -/
def halfSplit : List BtreeAction :=
  ((List.range 9).flatMap fun i => insertWide 0 (9 - i) 3 ++ [.ret 0]) ++ insertWide 0 10 3

theorem leaf_chain_halfSplit :
    ∃ s, btreeSystem.ReachableBy (OnPages (UpdatesApart Wide)) s ∧ s.rootId = 1 ∧
    s.rightOf 1 = [1, 2] ∧ s.Chained 0 1 ∧ s.leafKeys.Pairwise (· < ·) ∧
      s.leafKeys.length = 10 := by
  have hrun : (btreeSystem.exec (OnPages (UpdatesApart Wide)) init halfSplit).map
      (fun s => (s.rootId, s.rightOf 1, s.leafKeys.length)) = some (1, [1, 2], 10) := by
    decide +kernel
  obtain ⟨s, hexec, hview⟩ := Option.map_eq_some_iff.mp hrun
  obtain ⟨hroot, hview⟩ := Prod.mk.inj hview
  obtain ⟨hchain, hlength⟩ := Prod.mk.inj hview
  have hs : btreeSystem.ReachableBy (OnPages (UpdatesApart Wide)) s :=
    ⟨init, rfl, TSys.Steps.of_exec _ hexec⟩
  obtain ⟨hkeys, -, -, hchained, -⟩ := leaf_chain hs
  exact ⟨s, hs, hroot, hchain, hchained, hkeys, hlength⟩

end BTreeIndex

end Db7
