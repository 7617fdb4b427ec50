import Mathlib.Data.Finset.Card
import Mathlib.Data.Finset.Filter
import Mathlib.Data.Finset.Range
import Mathlib.Logic.Function.Basic
import Mathlib.Order.BoundedOrder.Basic

/-!
# B-link trees

A B-link tree is a set of nodes, each with a level, sorted entries, a high
fence and a link to its right neighbour. The low fence of a node is not stored;
it is a ghost map `low`. `Inv` relates the two:

* a node's entries lie in `[low, high)`, and the right neighbour starts at
  `high` on the same level;
* an inner node starts with an entry for its own low fence, and each entry
  leads one level down to the node that starts there;
* on one level the intervals of two nodes are disjoint.

Nothing says that a node has an entry in a parent: a split is complete before
its separator is inserted. The three changes keep the invariant:
`Inv.setEntries`, `Inv.split`, `Inv.newRoot`. Nodes never move left or change
level (`Grows`), so what a walker knows about the page it stands on (`At`)
stays true while others change the tree.
-/

namespace Lib.BLink

open Function

/-- A node. A leaf (level 0) does not use the second components. -/
structure Node (K : Type) where
  level : Nat
  entries : List (K × Nat)
  high : Option K
  rlink : Nat

/-- The nodes by page id, and the root's. -/
structure LinkTree (K : Type) where
  nodes : Nat → Option (Node K)
  root : Nat

variable {K : Type}

namespace LinkTree

/-- Replace or add a node. -/
def set (t : LinkTree K) (p : Nat) (n : Node K) : LinkTree K :=
  { t with nodes := update t.nodes p (some n) }

section Set

variable (t : LinkTree K) (p : Nat) (n : Node K)

@[simp] theorem set_root : (t.set p n).root = t.root := rfl

@[simp] theorem set_nodes_self : (t.set p n).nodes p = some n := by simp [set]

theorem set_nodes_of_ne {q : Nat} (h : q ≠ p) : (t.set p n).nodes q = t.nodes q := by
  simp [set, h]

end Set

/-- Each entry leads one level down, to the node that starts at its key. -/
def Children (t : LinkTree K) (low : Nat → K) (level : Nat) (es : List (K × Nat)) : Prop :=
  0 < level → ∀ e ∈ es, ∃ c, t.nodes e.2 = some c ∧ c.level + 1 = level ∧ low e.2 = e.1

/-- The first entry of an inner node is that of its low fence. -/
def Leftmost (lo : K) (level : Nat) (es : List (K × Nat)) : Prop :=
  0 < level → ∃ c es', es = (lo, c) :: es'

/-- The keys in the leaves. -/
def HasKey (t : LinkTree K) (k : K) : Prop :=
  ∃ p n, t.nodes p = some n ∧ n.level = 0 ∧ ∃ e ∈ n.entries, e.1 = k

/-- The nodes from `p` on along the right links. -/
def chain (t : LinkTree K) : Nat → Nat → List Nat
  | 0, _ => []
  | fuel + 1, p =>
      match t.nodes p with
      | none => []
      | some n => p :: if n.high.isSome then chain t fuel n.rlink else []

/-- The keys of nodes. -/
def keysOf (t : LinkTree K) (ps : List Nat) : List K :=
  ps.flatMap fun p => (t.nodes p).elim [] fun n => n.entries.map Prod.fst

end LinkTree

variable [LinearOrder K]

/-- Sorted entries with keys in `[lo, hi)`. -/
structure Within (lo : K) (hi : Option K) (es : List (K × Nat)) : Prop where
  sorted : es.Pairwise fun a b => a.1 < b.1
  lower : ∀ e ∈ es, lo ≤ e.1
  upper : ∀ h ∈ hi, ∀ e ∈ es, e.1 < h

/-- The key lies left of the high fence. -/
def Covers (n : Node K) (k : K) : Prop := ∀ h ∈ n.high, k < h

/-- `high'` is at most `high`. -/
def HighLe (high' high : Option K) : Prop := ∀ h ∈ high, ∃ h' ∈ high', h' ≤ h

theorem HighLe.refl (o : Option K) : HighLe o o := fun h hh => ⟨h, hh, le_rfl⟩

theorem HighLe.trans {a b c : Option K} (h₁ : HighLe a b) (h₂ : HighLe b c) : HighLe a c := by
  intro h hh
  obtain ⟨h', hh', hle⟩ := h₂ h hh
  obtain ⟨h'', hh'', hle'⟩ := h₁ h' hh'
  exact ⟨h'', hh'', hle'.trans hle⟩

theorem Within.nil (lo : K) (hi : Option K) : Within lo hi [] :=
  ⟨.nil, by simp, by simp⟩

theorem Within.sublist {lo : K} {hi : Option K} {es es' : List (K × Nat)} (h : Within lo hi es)
    (hs : es'.Sublist es) : Within lo hi es' :=
  ⟨h.sorted.sublist hs, fun e he => h.lower e (hs.subset he),
    fun b hb e he => h.upper b hb e (hs.subset he)⟩

/-- An entry goes in before the first entry that is not smaller. -/
theorem Within.insert {lo : K} {hi : Option K} {as bs : List (K × Nat)} {e : K × Nat}
    (h : Within lo hi (as ++ bs)) (hlo : lo ≤ e.1) (hhi : ∀ b ∈ hi, e.1 < b)
    (has : ∀ a ∈ as, a.1 < e.1) (hbs : ∀ b ∈ bs, e.1 < b.1) : Within lo hi (as ++ e :: bs) where
  sorted := by
    have hsplit := List.pairwise_append.mp h.sorted
    refine List.pairwise_append.mpr ⟨hsplit.1, List.pairwise_cons.mpr ⟨hbs, hsplit.2.1⟩, ?_⟩
    intro a ha b hb
    rcases List.mem_cons.mp hb with rfl | hb
    · exact has a ha
    · exact hsplit.2.2 a ha b hb
  lower x hx := by
    rcases List.mem_append.mp hx with hx | hx
    · exact h.lower x (List.mem_append_left _ hx)
    · rcases List.mem_cons.mp hx with rfl | hx
      · exact hlo
      · exact h.lower x (List.mem_append_right _ hx)
  upper b hb x hx := by
    rcases List.mem_append.mp hx with hx | hx
    · exact h.upper b hb x (List.mem_append_left _ hx)
    · rcases List.mem_cons.mp hx with rfl | hx
      · exact hhi b hb
      · exact h.upper b hb x (List.mem_append_right _ hx)

namespace LinkTree

/-- The invariant of one node. -/
structure NodeInv (t : LinkTree K) (low : Nat → K) (p : Nat) (n : Node K) : Prop where
  within : Within (low p) n.high n.entries
  nonempty : ∀ h ∈ n.high, low p < h
  right : ∀ h ∈ n.high, ∃ m, t.nodes n.rlink = some m ∧ m.level = n.level ∧ low n.rlink = h
  leftmost : Leftmost (low p) n.level n.entries
  children : Children t low n.level n.entries

/-- The invariant of a B-link tree with low fences `low`. -/
structure Inv [OrderBot K] (t : LinkTree K) (low : Nat → K) : Prop where
  node : ∀ p n, t.nodes p = some n → NodeInv t low p n
  root : ∃ n, t.nodes t.root = some n ∧ low t.root = ⊥ ∧
    ∀ p m, t.nodes p = some m → m.level ≤ n.level
  disjoint : ∀ p q n m, t.nodes p = some n → t.nodes q = some m → n.level = m.level →
    low p < low q → ∃ h ∈ n.high, h ≤ low q
  inj : ∀ p q n m, t.nodes p = some n → t.nodes q = some m → n.level = m.level →
    low p = low q → p = q

/-- Nodes stay, on their level and with their low fence; high fences only
decrease. -/
structure Grows (t t' : LinkTree K) (low low' : Nat → K) : Prop where
  node : ∀ p n, t.nodes p = some n →
    ∃ n', t'.nodes p = some n' ∧ n'.level = n.level ∧ HighLe n'.high n.high
  low : ∀ p n, t.nodes p = some n → low' p = low p

theorem Grows.refl (t : LinkTree K) (low : Nat → K) : Grows t t low low :=
  ⟨fun _ n h => ⟨n, h, rfl, .refl _⟩, fun _ _ _ => rfl⟩

section Changes

variable {t : LinkTree K} {low : Nat → K} {p q : Nat} {n : Node K}

theorem Children.mono {t' : LinkTree K} {low' : Nat → K} {level : Nat} {es : List (K × Nat)}
    (h : Children t low level es) (hg : Grows t t' low low') : Children t' low' level es := by
  intro hlevel e he
  obtain ⟨c, hc, hlvl, hlow⟩ := h hlevel e he
  obtain ⟨c', hc', hlvl', -⟩ := hg.node _ c hc
  exact ⟨c', hc', by omega, by rw [hg.low _ c hc, hlow]⟩

/-- A node that was not touched keeps its invariant. -/
theorem NodeInv.mono {t' : LinkTree K} {low' : Nat → K} (h : NodeInv t low p n)
    (hp : t.nodes p = some n) (hg : Grows t t' low low') : NodeInv t' low' p n := by
  have hlow := hg.low p n hp
  refine ⟨hlow ▸ h.within, hlow ▸ h.nonempty, fun b hb => ?_, hlow ▸ h.leftmost,
    h.children.mono hg⟩
  obtain ⟨m, hm, hlvl, hlowm⟩ := h.right b hb
  obtain ⟨m', hm', hlvl', -⟩ := hg.node _ m hm
  exact ⟨m', hm', by omega, by rw [hg.low _ m hm, hlowm]⟩

theorem grows_set {n' : Node K} (hp : t.nodes p = some n) (hlevel : n'.level = n.level)
    (hhigh : HighLe n'.high n.high) : Grows t (t.set p n') low low where
  low _ _ _ := rfl
  node r m hr := by
    by_cases hrp : r = p
    · subst hrp
      rw [hp] at hr
      obtain rfl := Option.some.inj hr
      exact ⟨n', by simp, hlevel, hhigh⟩
    · exact ⟨m, by rw [set_nodes_of_ne _ _ _ hrp, hr], rfl, .refl _⟩

theorem grows_split (hp : t.nodes p = some n) (hq : t.nodes q = none) (low : Nat → K) {s : K}
    (hhi : ∀ b ∈ n.high, s < b) (l r : List (K × Nat)) :
    Grows t ((t.set p { n with entries := l, high := some s, rlink := q }).set q
      { n with entries := r }) low (update low q s) where
  low u m hu := by
    have huq : u ≠ q := by
      rintro rfl
      simp [hu] at hq
    simp [huq]
  node u m hu := by
    have huq : u ≠ q := by
      rintro rfl
      simp [hu] at hq
    rw [set_nodes_of_ne _ _ _ huq]
    by_cases hup : u = p
    · subst hup
      rw [hp] at hu
      obtain rfl := Option.some.inj hu
      exact ⟨_, set_nodes_self .., rfl, fun b hb => ⟨s, rfl, (hhi b hb).le⟩⟩
    · exact ⟨m, by rw [set_nodes_of_ne _ _ _ hup, hu], rfl, .refl _⟩

variable [OrderBot K]

/-- New entries for one node. -/
theorem Inv.setEntries (h : Inv t low) (hp : t.nodes p = some n) {es : List (K × Nat)}
    (hw : Within (low p) n.high es) (hl : Leftmost (low p) n.level es)
    (hc : Children t low n.level es) : Inv (t.set p { n with entries := es }) low := by
  have hg : Grows t (t.set p { n with entries := es }) low low := grows_set hp rfl (.refl _)
  have hback : ∀ r m, (t.set p { n with entries := es }).nodes r = some m →
      ∃ m₀, t.nodes r = some m₀ ∧ m₀.level = m.level ∧ m₀.high = m.high := by
    intro r m hr
    by_cases hrp : r = p
    · subst hrp
      rw [set_nodes_self] at hr
      obtain rfl := Option.some.inj hr
      exact ⟨n, hp, rfl, rfl⟩
    · rw [set_nodes_of_ne _ _ _ hrp] at hr
      exact ⟨m, hr, rfl, rfl⟩
  refine ⟨fun r m hr => ?_, ?_, fun r s m m' hr hs hlevel hlt => ?_,
    fun r s m m' hr hs hlevel heq => ?_⟩
  · by_cases hrp : r = p
    · subst hrp
      rw [set_nodes_self] at hr
      obtain rfl := Option.some.inj hr
      have hold := (h.node r n hp).mono hp hg
      exact ⟨hw, hold.nonempty, hold.right, hl, hc.mono hg⟩
    · rw [set_nodes_of_ne _ _ _ hrp] at hr
      exact (h.node r m hr).mono hr hg
  · obtain ⟨n₀, hroot, hlow, hmax⟩ := h.root
    obtain ⟨n₁, hroot', hlevel, -⟩ := hg.node _ n₀ hroot
    refine ⟨n₁, hroot', hlow, fun r m hr => ?_⟩
    obtain ⟨m₀, hr₀, hlvl, -⟩ := hback r m hr
    have := hmax r m₀ hr₀
    omega
  · obtain ⟨m₀, hr₀, hlvl, hhigh⟩ := hback r m hr
    obtain ⟨m₁, hs₀, hlvl', -⟩ := hback s m' hs
    exact hhigh ▸ h.disjoint r s m₀ m₁ hr₀ hs₀ (by omega) hlt
  · obtain ⟨m₀, hr₀, hlvl, -⟩ := hback r m hr
    obtain ⟨m₁, hs₀, hlvl', -⟩ := hback s m' hs
    exact h.inj r s m₀ m₁ hr₀ hs₀ (by omega) heq

/-- Half of node `p` moves to a new node `q`, which starts at `s`. -/
theorem Inv.split (h : Inv t low) (hp : t.nodes p = some n) (hq : t.nodes q = none) {s : K}
    (hlo : low p < s) (hhi : ∀ b ∈ n.high, s < b) {l r : List (K × Nat)}
    (hwl : Within (low p) (some s) l) (hwr : Within s n.high r)
    (hll : Leftmost (low p) n.level l) (hlr : Leftmost s n.level r)
    (hcl : Children t low n.level l) (hcr : Children t low n.level r) :
    Inv ((t.set p { n with entries := l, high := some s, rlink := q }).set q
      { n with entries := r }) (update low q s) := by
  have hpq : p ≠ q := by
    rintro rfl
    simp [hp] at hq
  have hg := grows_split hp hq low hhi l r
  have hlowp : update low q s p = low p := by simp [hpq]
  have hlowq : update low q s q = s := by simp
  generalize hT : (t.set p { n with entries := l, high := some s, rlink := q }).set q
      { n with entries := r } = t' at hg ⊢
  have hnodep : t'.nodes p = some { n with entries := l, high := some s, rlink := q } := by
    rw [← hT, set_nodes_of_ne _ _ _ hpq, set_nodes_self]
  have hnodeq : t'.nodes q = some { n with entries := r } := by rw [← hT, set_nodes_self]
  have hother : ∀ u, u ≠ p → u ≠ q → t'.nodes u = t.nodes u := by
    intro u hup huq
    rw [← hT, set_nodes_of_ne _ _ _ huq, set_nodes_of_ne _ _ _ hup]
  have hlow : ∀ u, u ≠ q → update low q s u = low u := fun u hu => by simp [hu]
  -- how a node on `p`'s level lies to `p` and so to `s`
  have hleft : ∀ u m, t.nodes u = some m → m.level = n.level → u ≠ p → low u < s →
      ∃ b ∈ m.high, b ≤ low p := by
    intro u m hu hlevel hup hlt
    rcases lt_trichotomy (low u) (low p) with hlt' | heq | hgt
    · exact h.disjoint u p m n hu hp hlevel hlt'
    · exact absurd (h.inj u p m n hu hp hlevel heq) hup
    · obtain ⟨b, hb, hle⟩ := h.disjoint p u n m hp hu hlevel.symm hgt
      exact absurd (hhi b hb) (not_lt.mpr (hle.trans hlt.le))
  have hright : ∀ u m, t.nodes u = some m → m.level = n.level → u ≠ p → low p < low u →
      s < low u ∧ ∃ b ∈ n.high, b ≤ low u := by
    intro u m hu hlevel hup hlt
    obtain ⟨b, hb, hle⟩ := h.disjoint p u n m hp hu hlevel.symm hlt
    exact ⟨(hhi b hb).trans_le hle, b, hb, hle⟩
  refine ⟨fun u m hu => ?_, ?_, fun u v m m' hu hv hlevel hlt => ?_,
    fun u v m m' hu hv hlevel heq => ?_⟩
  · by_cases huq : u = q
    · subst huq
      rw [hnodeq] at hu
      obtain rfl := Option.some.inj hu
      have hold := (h.node p n hp).mono hp hg
      exact ⟨by rw [hlowq]; exact hwr, by rw [hlowq]; exact hhi, hold.right,
        by rw [hlowq]; exact hlr, hcr.mono hg⟩
    · by_cases hup : u = p
      · subst hup
        rw [hnodep] at hu
        obtain rfl := Option.some.inj hu
        refine ⟨by rw [hlowp]; exact hwl, fun b hb => ?_, fun b hb => ?_,
          by rw [hlowp]; exact hll, hcl.mono hg⟩
        · obtain rfl := Option.some.inj hb
          rw [hlowp]; exact hlo
        · obtain rfl := Option.some.inj hb
          exact ⟨_, hnodeq, rfl, hlowq⟩
      · rw [hother u hup huq] at hu
        exact (h.node u m hu).mono hu hg
  · obtain ⟨n₀, hroot, hlowr, hmax⟩ := h.root
    obtain ⟨n₁, hroot', hlevel, -⟩ := hg.node _ n₀ hroot
    have hr : t'.root = t.root := by rw [← hT]; rfl
    refine ⟨n₁, by rw [hr, hroot'], by rw [hr, hg.low _ n₀ hroot, hlowr], fun u m hu => ?_⟩
    by_cases huq : u = q
    · subst huq
      rw [hnodeq] at hu
      obtain rfl := Option.some.inj hu
      have := hmax p n hp
      show n.level ≤ n₁.level
      omega
    · by_cases hup : u = p
      · subst hup
        rw [hnodep] at hu
        obtain rfl := Option.some.inj hu
        have := hmax u n hp
        show n.level ≤ n₁.level
        omega
      · rw [hother u hup huq] at hu
        have := hmax u m hu
        omega
  · -- the new pair of neighbours, and each of them against an old node
    by_cases huq : u = q
    · subst huq
      rw [hnodeq] at hu
      obtain rfl := Option.some.inj hu
      rw [hlowq] at hlt
      have hvq : v ≠ u := by
        rintro rfl
        rw [hlowq] at hlt
        exact lt_irrefl _ hlt
      rw [hlow v hvq] at hlt ⊢
      by_cases hvp : v = p
      · subst hvp
        exact absurd (hlo.trans hlt) (lt_irrefl _)
      · rw [hother v hvp hvq] at hv
        exact (hright v m' hv hlevel.symm hvp (hlo.trans hlt)).2
    · rw [hlow u huq] at hlt
      by_cases hup : u = p
      · subst hup
        rw [hnodep] at hu
        obtain rfl := Option.some.inj hu
        refine ⟨s, rfl, ?_⟩
        by_cases hvq : v = q
        · subst hvq
          rw [hlowq]
        · rw [hlow v hvq] at hlt ⊢
          have hvu : v ≠ u := by
            rintro rfl
            exact lt_irrefl _ hlt
          rw [hother v hvu hvq] at hv
          exact (hright v m' hv hlevel.symm hvu hlt).1.le
      · rw [hother u hup huq] at hu
        by_cases hvq : v = q
        · subst hvq
          rw [hnodeq] at hv
          obtain rfl := Option.some.inj hv
          rw [hlowq] at hlt ⊢
          obtain ⟨b, hb, hle⟩ := hleft u m hu hlevel hup hlt
          exact ⟨b, hb, hle.trans hlo.le⟩
        · rw [hlow v hvq] at hlt ⊢
          by_cases hvp : v = p
          · subst hvp
            rw [hnodep] at hv
            obtain rfl := Option.some.inj hv
            exact h.disjoint u v m n hu hp hlevel hlt
          · rw [hother v hvp hvq] at hv
            exact h.disjoint u v m m' hu hv hlevel hlt
  · by_cases huq : u = q
    · subst huq
      rw [hnodeq] at hu
      obtain rfl := Option.some.inj hu
      by_contra hvu
      have hvq : v ≠ u := fun h => hvu h.symm
      rw [hlowq, hlow v hvq] at heq
      by_cases hvp : v = p
      · subst hvp
        exact absurd heq hlo.ne'
      · rw [hother v hvp hvq] at hv
        have := (hright v m' hv hlevel.symm hvp (heq ▸ hlo)).1
        exact absurd heq this.ne
    · rw [hlow u huq] at heq
      by_cases hvq : v = q
      · subst hvq
        rw [hnodeq] at hv
        obtain rfl := Option.some.inj hv
        rw [hlowq] at heq
        by_cases hup : u = p
        · subst hup
          exact absurd heq hlo.ne
        · rw [hother u hup huq] at hu
          have := (hright u m hu hlevel hup (heq ▸ hlo)).1
          exact absurd heq this.ne'
      · rw [hlow v hvq] at heq
        have hback : ∀ w k, w ≠ q → t'.nodes w = some k →
            ∃ k₀, t.nodes w = some k₀ ∧ k₀.level = k.level := by
          intro w k hwq hw
          by_cases hwp : w = p
          · subst hwp
            rw [hnodep] at hw
            obtain rfl := Option.some.inj hw
            exact ⟨n, hp, rfl⟩
          · rw [hother w hwp hwq] at hw
            exact ⟨k, hw, rfl⟩
        obtain ⟨m₀, hu₀, hlvl⟩ := hback u m huq hu
        obtain ⟨m₁, hv₀, hlvl'⟩ := hback v m' hvq hv
        exact h.inj u v m₀ m₁ hu₀ hv₀ (by omega) heq

/-- A new root over the old one and its right neighbour. -/
def withRoot (t : LinkTree K) (q level : Nat) (s : K) (c : Nat) (rlink : Nat) : LinkTree K :=
  { t.set q ⟨level + 1, [(⊥, t.root), (s, c)], none, rlink⟩ with root := q }

theorem withRoot_nodes_self (t : LinkTree K) (q level : Nat) (s : K) (c rlink : Nat) :
    (t.withRoot q level s c rlink).nodes q =
      some ⟨level + 1, [(⊥, t.root), (s, c)], none, rlink⟩ := by
  simp [withRoot]

theorem withRoot_nodes_of_ne {level c rlink u : Nat} {s : K} (hu : u ≠ q) :
    (t.withRoot q level s c rlink).nodes u = t.nodes u := by
  simp [withRoot, set_nodes_of_ne, hu]

theorem grows_newRoot (hq : t.nodes q = none) (low : Nat → K) (level : Nat) (s : K)
    (c rlink : Nat) :
    Grows t (t.withRoot q level s c rlink) low (update low q ⊥) := by
  have hne : ∀ u m, t.nodes u = some m → u ≠ q := by
    rintro u m hu rfl
    simp [hu] at hq
  refine ⟨fun u m hu => ⟨m, ?_, rfl, .refl _⟩, fun u m hu => by simp [hne u m hu]⟩
  rw [withRoot_nodes_of_ne (hne u m hu), hu]

theorem Inv.newRoot (h : Inv t low) (hp : t.nodes t.root = some n) (hq : t.nodes q = none)
    {s : K} {c : Nat} (rlink : Nat) {m : Node K} (hs : ⊥ < s) (hc : t.nodes c = some m)
    (hlevel : m.level = n.level) (hlow : low c = s) :
    Inv (t.withRoot q n.level s c rlink) (update low q ⊥) := by
  have hg := grows_newRoot hq low n.level s c rlink
  obtain ⟨n₀, hroot, hlowr, hmax⟩ := h.root
  obtain rfl : n₀ = n := Option.some.inj (hroot.symm.trans hp)
  have hne : ∀ u k, t.nodes u = some k → u ≠ q := by
    rintro u k hu rfl
    simp [hu] at hq
  have hself := withRoot_nodes_self t q n₀.level s c rlink
  have hback : ∀ u k, u ≠ q → (t.withRoot q n₀.level s c rlink).nodes u = some k →
      t.nodes u = some k ∧ update low q ⊥ u = low u := by
    intro u k hu hk
    rw [withRoot_nodes_of_ne hu] at hk
    exact ⟨hk, by simp [hu]⟩
  -- nothing else is on the new root's level
  have hlevels : ∀ u k, u ≠ q → (t.withRoot q n₀.level s c rlink).nodes u = some k →
      k.level ≠ n₀.level + 1 := by
    intro u k hu hk
    have := hmax u k (hback u k hu hk).1
    omega
  refine ⟨fun u k hu => ?_, ⟨_, hself, by simp [withRoot], fun u k hu => ?_⟩,
    fun u v k k' hu hv hlvl hlt => ?_, fun u v k k' hu hv hlvl heq => ?_⟩
  · by_cases huq : u = q
    · subst huq
      rw [hself] at hu
      obtain rfl := Option.some.inj hu
      refine ⟨⟨?_, ?_, by simp⟩, by simp, by simp, fun _ => ⟨t.root, [(s, c)], by simp⟩, ?_⟩
      · simpa using hs
      · simp
      · intro _ e he
        simp only [List.mem_cons, List.not_mem_nil, or_false] at he
        rcases he with rfl | rfl
        · obtain ⟨k', hk', hlvl, -⟩ := hg.node _ n₀ hp
          exact ⟨k', hk', by show k'.level + 1 = n₀.level + 1; omega,
            by rw [hg.low _ n₀ hp, hlowr]⟩
        · obtain ⟨k', hk', hlvl, -⟩ := hg.node _ m hc
          exact ⟨k', hk', by show k'.level + 1 = n₀.level + 1; omega, by rw [hg.low _ m hc, hlow]⟩
    · exact (h.node u k (hback u k huq hu).1).mono (hback u k huq hu).1 hg
  · by_cases huq : u = q
    · subst huq
      rw [hself] at hu
      obtain rfl := Option.some.inj hu
      exact le_rfl
    · have := hmax u k (hback u k huq hu).1
      show k.level ≤ n₀.level + 1
      omega
  · have huv : u ≠ v := by
      rintro rfl
      exact lt_irrefl _ hlt
    by_cases huq : u = q
    · subst huq
      rw [hself] at hu
      obtain rfl := Option.some.inj hu
      exact absurd hlvl.symm (hlevels v k' huv.symm hv)
    · by_cases hvq : v = q
      · subst hvq
        rw [hself] at hv
        obtain rfl := Option.some.inj hv
        exact absurd hlvl (hlevels u k huq hu)
      · rw [(hback u k huq hu).2, (hback v k' hvq hv).2] at hlt
        rw [(hback v k' hvq hv).2]
        exact h.disjoint u v k k' (hback u k huq hu).1 (hback v k' hvq hv).1 hlvl hlt
  · by_contra huv
    by_cases huq : u = q
    · subst huq
      rw [hself] at hu
      obtain rfl := Option.some.inj hu
      exact absurd hlvl.symm (hlevels v k' (fun h => huv h.symm) hv)
    · by_cases hvq : v = q
      · subst hvq
        rw [hself] at hv
        obtain rfl := Option.some.inj hv
        exact absurd hlvl (hlevels u k huq hu)
      · rw [(hback u k huq hu).2, (hback v k' hvq hv).2] at heq
        exact huv (h.inj u v k k' (hback u k huq hu).1 (hback v k' hvq hv).1 hlvl heq)

end Changes

/-! ## Walking -/

/-- Page `p` is on `level` and starts at or left of `k`. -/
def At (t : LinkTree K) (low : Nat → K) (p level : Nat) (k : K) : Prop :=
  ∃ n, t.nodes p = some n ∧ n.level = level ∧ low p ≤ k

section Walking

variable {t t' : LinkTree K} {low low' : Nat → K} {p q level : Nat} {n : Node K} {k : K}

theorem At.grows (h : At t low p level k) (hg : Grows t t' low low') : At t' low' p level k := by
  obtain ⟨n, hp, hlevel, hlow⟩ := h
  obtain ⟨n', hp', hlevel', -⟩ := hg.node p n hp
  exact ⟨n', hp', by omega, by rw [hg.low p n hp]; exact hlow⟩

variable [OrderBot K]

theorem Inv.at_root (h : Inv t low) (k : K) (hp : t.nodes t.root = some n) :
    At t low t.root n.level k := by
  obtain ⟨n₀, hroot, hlow, -⟩ := h.root
  exact ⟨n, hp, rfl, by rw [hlow]; exact bot_le⟩

/-- The right neighbour of a node whose high fence is not above `k`. -/
theorem Inv.at_right (h : Inv t low) (hp : t.nodes p = some n) {b : K} (hb : b ∈ n.high)
    (hk : b ≤ k) : At t low n.rlink n.level k ∧ low n.rlink = b ∧ low p < low n.rlink := by
  obtain ⟨m, hm, hlevel, hlow⟩ := (h.node p n hp).right b hb
  exact ⟨⟨m, hm, hlevel, hlow ▸ hk⟩, hlow, hlow ▸ (h.node p n hp).nonempty b hb⟩

/-- The child of an entry at or left of `k`. -/
theorem Inv.at_child (h : Inv t low) (hp : t.nodes p = some n) (hlevel : 0 < n.level)
    {e : K × Nat} (he : e ∈ n.entries) (hk : e.1 ≤ k) :
    At t low e.2 (n.level - 1) k ∧ low p ≤ low e.2 := by
  obtain ⟨c, hc, hlvl, hlow⟩ := (h.node p n hp).children hlevel e he
  exact ⟨⟨c, hc, by omega, hlow ▸ hk⟩, hlow ▸ (h.node p n hp).within.lower e he⟩

/-- A key is in the interval of one node of a level only. -/
theorem Inv.cover_unique (h : Inv t low) {m : Node K} (hp : t.nodes p = some n)
    (hq : t.nodes q = some m) (hlevel : n.level = m.level) (hlp : low p ≤ k) (hhp : Covers n k)
    (hlq : low q ≤ k) (hhq : Covers m k) : p = q := by
  rcases lt_trichotomy (low p) (low q) with hlt | heq | hgt
  · obtain ⟨b, hb, hle⟩ := h.disjoint p q n m hp hq hlevel hlt
    exact absurd (hhp b hb) (not_lt.mpr (hle.trans hlq))
  · exact h.inj p q n m hp hq hlevel heq
  · obtain ⟨b, hb, hle⟩ := h.disjoint q p m n hq hp hlevel.symm hgt
    exact absurd (hhq b hb) (not_lt.mpr (hle.trans hlp))

/-- A key of the tree is in the leaf that covers it. -/
theorem Inv.mem_of_hasKey (h : Inv t low) (hp : t.nodes p = some n) (hlevel : n.level = 0)
    (hlow : low p ≤ k) (hcov : Covers n k) (hk : HasKey t k) : ∃ e ∈ n.entries, e.1 = k := by
  obtain ⟨q, m, hq, hlvl, e, he, rfl⟩ := hk
  have hw := (h.node q m hq).within
  obtain rfl := h.cover_unique hp hq (by omega) hlow hcov (hw.lower e he) fun b hb =>
    hw.upper b hb e he
  obtain rfl := Option.some.inj (hp.symm.trans hq)
  exact ⟨e, he, rfl⟩

/-! ## What lies below an entry -/

/-- `k` is a key of a leaf that entries lead to from `p`. -/
inductive Below (t : LinkTree K) : Nat → K → Prop
  | leaf {p : Nat} {n : Node K} {e : K × Nat} : t.nodes p = some n → n.level = 0 →
      e ∈ n.entries → Below t p e.1
  | child {p : Nat} {n : Node K} {e : K × Nat} {k : K} : t.nodes p = some n → 0 < n.level →
      e ∈ n.entries → Below t e.2 k → Below t p k

/-- A child ends at or left of the high fence of its parent. -/
theorem Inv.high_child (h : Inv t low) {m : Node K} (hp : t.nodes p = some n) (hlevel : 0 < n.level)
    {e : K × Nat} (he : e ∈ n.entries) (hc : t.nodes e.2 = some m) : HighLe m.high n.high := by
  intro b hb
  have hn := h.node p n hp
  obtain ⟨m', hm', hlvl, hlow⟩ := hn.right b hb
  obtain ⟨d, es, hcons⟩ := (h.node _ m' hm').leftmost (by omega)
  -- the first child of the right neighbour starts at the fence
  obtain ⟨c', hc', hlvl', hlow'⟩ := (h.node _ m' hm').children (by omega) (low n.rlink, d) (by
    rw [hcons]
    exact List.mem_cons_self)
  obtain ⟨c, hc₀, hlvlc, hlowc⟩ := hn.children hlevel e he
  obtain rfl := Option.some.inj (hc.symm.trans hc₀)
  have hlt : low e.2 < low d := by
    show low e.2 < low (low n.rlink, d).2
    rw [hlowc, hlow', hlow]
    exact hn.within.upper b hb e he
  obtain ⟨b', hb', hle⟩ := h.disjoint e.2 d m c' hc hc' (by omega) hlt
  have hd : low d = b := hlow'.trans hlow
  exact ⟨b', hb', hd ▸ hle⟩

/-- A key below a node lies in the interval of the node. -/
theorem Inv.below_within (h : Inv t low) (hb : Below t p k) :
    ∀ n, t.nodes p = some n → low p ≤ k ∧ Covers n k := by
  induction hb with
  | @leaf p n e hp _ he =>
      intro n' hn'
      obtain rfl := Option.some.inj (hp.symm.trans hn')
      have hw := (h.node p n hp).within
      exact ⟨hw.lower e he, fun b hb => hw.upper b hb e he⟩
  | @child p n e k hp hlevel he _ ih =>
      intro n' hn'
      obtain rfl := Option.some.inj (hp.symm.trans hn')
      obtain ⟨c, hc, -, hlow⟩ := (h.node p n hp).children hlevel e he
      obtain ⟨hle, hcov⟩ := ih c hc
      refine ⟨((h.node p n hp).within.lower e he).trans (hlow ▸ hle), fun b hb => ?_⟩
      obtain ⟨b', hb', hle'⟩ := h.high_child hp hlevel he hc b hb
      exact (hcov b' hb').trans_le hle'

/-- The keys below an entry lie between its key and the next one's, and left of
the high fence. -/
theorem Inv.below_entry (h : Inv t low) (hp : t.nodes p = some n) (hlevel : 0 < n.level)
    {as bs : List (K × Nat)} {e : K × Nat} (hes : n.entries = as ++ e :: bs) (hb : Below t e.2 k) :
    e.1 ≤ k ∧ (∀ e' ∈ bs, k < e'.1) ∧ Covers n k := by
  have hn := h.node p n hp
  have he : e ∈ n.entries := by
    rw [hes]
    simp
  obtain ⟨c, hc, hlvl, hlow⟩ := hn.children hlevel e he
  obtain ⟨hle, hcov⟩ := h.below_within hb c hc
  refine ⟨hlow ▸ hle, fun e' he' => ?_, (h.below_within (.child hp hlevel he hb) n hp).2⟩
  have hmem : e' ∈ n.entries := by
    rw [hes]
    exact List.mem_append_right _ (List.mem_cons_of_mem _ he')
  obtain ⟨c', hc', hlvl', hlow'⟩ := hn.children hlevel e' hmem
  have hlt : e.1 < e'.1 := by
    have hs := hn.within.sorted
    rw [hes] at hs
    exact (List.pairwise_cons.mp (List.pairwise_append.mp hs).2.1).1 e' he'
  obtain ⟨b, hb', hle'⟩ :=
    h.disjoint e.2 e'.2 c c' hc hc' (by omega) (by rw [hlow, hlow']; exact hlt)
  exact (hcov b hb').trans_le (hlow' ▸ hle')

/-! ## Walks end -/

open scoped Classical in
/-- The nodes that start right of `p`, below page id `bound`. -/
noncomputable def toTheRight (t : LinkTree K) (low : Nat → K) (bound p : Nat) : Nat :=
  ((Finset.range bound).filter fun q => t.nodes q ≠ none ∧ low p < low q).card

omit [OrderBot K] in
/-- Each step to the right leaves fewer of them. -/
theorem toTheRight_lt {bound : Nat} (hq : t.nodes q ≠ none) (hbound : q < bound)
    (hlt : low p < low q) : toTheRight t low bound q < toTheRight t low bound p := by
  refine Finset.card_lt_card (Finset.ssubset_iff_subset_ne.mpr ⟨fun u hu => ?_, fun heq => ?_⟩)
  · simp only [Finset.mem_filter] at hu ⊢
    exact ⟨hu.1, hu.2.1, hlt.trans hu.2.2⟩
  · have hmem : q ∈ (Finset.range bound).filter fun u => t.nodes u ≠ none ∧ low p < low u := by
      simp [hbound, hq, hlt]
    rw [← heq] at hmem
    exact lt_irrefl _ (Finset.mem_filter.mp hmem).2.2

omit [OrderBot K] in
theorem toTheRight_lt_bound {bound : Nat} (hp : p < bound) : toTheRight t low bound p < bound := by
  have hsub : ((Finset.range bound).filter fun q => t.nodes q ≠ none ∧ low p < low q) ⊂
      Finset.range bound := by
    refine Finset.filter_ssubset.mpr ⟨p, Finset.mem_range.mpr hp, fun h => lt_irrefl _ h.2⟩
  simpa [toTheRight] using Finset.card_lt_card hsub

omit [OrderBot K] in
/-- The pages right of `p` depend on the low fences of pages only. -/
theorem toTheRight_congr {low' : Nat → K} (hlow : ∀ u m, t.nodes u = some m → low' u = low u)
    (hp : t.nodes p ≠ none) (bound : Nat) :
    toTheRight t low' bound p = toTheRight t low bound p := by
  unfold toTheRight
  congr 1
  refine Finset.filter_congr fun u _ => and_congr_right fun hu => ?_
  obtain ⟨m, hm⟩ := Option.ne_none_iff_exists'.mp hu
  obtain ⟨n, hn⟩ := Option.ne_none_iff_exists'.mp hp
  rw [hlow u m hm, hlow p n hn]

/-! ## Sweeps -/

/-- The nodes of a level that cover the keys from `k` up to a frontier, in the hands of a
walker that went right from the first of them. -/
structure Swept (t : LinkTree K) (low : Nat → K) (level : Nat) (k : K) (visited : List Nat)
    (frontier : Option K) : Prop where
  nodes : ∀ p ∈ visited, ∃ n, t.nodes p = some n ∧ n.level = level
  seen : ∀ j, k ≤ j → (∀ b ∈ frontier, j < b) → ∀ q n, t.nodes q = some n → n.level = level →
    low q ≤ j → Covers n j → q ∈ visited

theorem Swept.start (h : Inv t low) (hp : t.nodes p = some n) (hlow : low p ≤ k) :
    Swept t low n.level k [p] n.high where
  nodes := by
    intro u hu
    obtain rfl := List.mem_singleton.mp hu
    exact ⟨n, hp, rfl⟩
  seen := by
    intro j hkj hj q m hq hlevel hlq hcq
    rw [h.cover_unique hq hp hlevel hlq hcq (hlow.trans hkj) hj]
    exact List.mem_singleton_self p

/-- The walker goes on to the node that starts at the frontier. -/
theorem Swept.next (h : Inv t low) {visited : List Nat}
    (hw : Swept t low level k visited (some (low q)))
    (hq : t.nodes q = some n) (hlevel : n.level = level) :
    Swept t low level k (visited ++ [q]) n.high where
  nodes := by
    intro u hu
    rcases List.mem_append.mp hu with hu | hu
    · exact hw.nodes u hu
    · obtain rfl := List.mem_singleton.mp hu
      exact ⟨n, hq, hlevel⟩
  seen := by
    intro j hkj hj u m hu hlvl hlu hcu
    by_cases hlt : j < low q
    · refine List.mem_append_left _ (hw.seen j hkj ?_ u m hu hlvl hlu hcu)
      rintro b hb
      obtain rfl := Option.some.inj hb
      exact hlt
    · rw [h.cover_unique hu hq (hlvl.trans hlevel.symm) hlu hcu (not_lt.mp hlt) hj]
      exact List.mem_append_right _ (List.mem_singleton_self q)

omit [OrderBot K] in
/-- What others do to nodes that are not in the walker's hands: a new node has its keys
from one of those. -/
theorem Swept.grows {visited : List Nat} {frontier : Option K}
    (hw : Swept t low level k visited frontier)
    (hg : Grows t t' low low') (hsame : ∀ p ∈ visited, t'.nodes p = t.nodes p)
    (hnew : ∀ q m, t'.nodes q = some m → t.nodes q = none → ∃ p n, p ∉ visited ∧
      t.nodes p = some n ∧
      n.level = m.level ∧ low p ≤ low' q ∧ HighLe m.high n.high) :
    Swept t' low' level k visited frontier where
  nodes := by
    intro p hp
    rw [hsame p hp]
    exact hw.nodes p hp
  seen := by
    intro j hkj hj q m hq hlevel hlq hcq
    have hcovers : ∀ n : Node K, HighLe m.high n.high → Covers n j := by
      intro n hle b hb
      obtain ⟨b', hb', hbb⟩ := hle b hb
      exact (hcq b' hb').trans_le hbb
    cases hold : t.nodes q with
    | some n =>
        obtain ⟨n', hn', hlvl, hhigh⟩ := hg.node q n hold
        obtain rfl := Option.some.inj (hn'.symm.trans hq)
        exact hw.seen j hkj hj q n hold (hlvl.symm.trans hlevel) (by rwa [← hg.low q n hold])
          (hcovers n hhigh)
    | none =>
        obtain ⟨p, n, hp, hn, hlvl, hlow, hhigh⟩ := hnew q m hq hold
        exact absurd (hw.seen j hkj hj p n hn (hlvl.trans hlevel) (hlow.trans hlq)
          (hcovers n hhigh)) hp

end Walking

/-! ## Chains -/

section Chains

variable [OrderBot K] {t : LinkTree K} {low : Nat → K}

omit [LinearOrder K] [OrderBot K] in
theorem mem_keysOf {ps : List Nat} {k : K} :
    k ∈ t.keysOf ps ↔ ∃ p ∈ ps, ∃ n, t.nodes p = some n ∧ ∃ e ∈ n.entries, e.1 = k := by
  simp only [keysOf, List.mem_flatMap]
  refine exists_congr fun p => and_congr_right fun _ => ?_
  cases t.nodes p <;> simp

/-- A chain visits the nodes of its level that start at or right of its first node, in order. -/
theorem Inv.chain_visits (h : Inv t low) {bound : Nat}
    (hbound : ∀ q m, t.nodes q = some m → q < bound) :
    ∀ {fuel p n}, t.nodes p = some n → toTheRight t low bound p < fuel →
      (∀ q, q ∈ t.chain fuel p ↔ ∃ m, t.nodes q = some m ∧ m.level = n.level ∧ low p ≤ low q) ∧
        (t.chain fuel p).Pairwise (low · < low ·) := by
  intro fuel
  induction fuel with
  | zero =>
      intro p n _ hfuel
      exact absurd hfuel (Nat.not_lt_zero _)
  | succ fuel ih =>
      intro p n hp hfuel
      cases hhigh : n.high with
      | none =>
          -- nothing of the level is right of the last node
          have hchain : t.chain (fuel + 1) p = [p] := by simp [chain, hp, hhigh]
          rw [hchain]
          refine ⟨fun q => ?_, List.pairwise_singleton _ _⟩
          rw [List.mem_singleton]
          refine ⟨fun heq => ⟨n, heq ▸ hp, rfl, (congrArg low heq).ge⟩, ?_⟩
          rintro ⟨m, hq, hlevel, hle⟩
          obtain heq | hlt := hle.eq_or_lt
          · exact (h.inj p q n m hp hq hlevel.symm heq).symm
          · obtain ⟨b, hb, -⟩ := h.disjoint p q n m hp hq hlevel.symm hlt
            simp [hhigh] at hb
      | some b =>
          have hchain : t.chain (fuel + 1) p = p :: t.chain fuel n.rlink := by
            simp [chain, hp, hhigh]
          obtain ⟨⟨r, hr, hrlevel, -⟩, hlow, hlt⟩ := h.at_right hp hhigh le_rfl
          have hfewer : toTheRight t low bound n.rlink < toTheRight t low bound p :=
            toTheRight_lt (by simp [hr]) (hbound _ r hr) hlt
          obtain ⟨hmem, hsorted⟩ := ih hr (by omega)
          rw [hchain]
          refine ⟨fun q => ?_, List.pairwise_cons.mpr ⟨fun q hq => ?_, hsorted⟩⟩
          · rw [List.mem_cons, hmem]
            constructor
            · rintro (rfl | ⟨m, hq, hlevel, hle⟩)
              · exact ⟨n, hp, rfl, le_rfl⟩
              · exact ⟨m, hq, hlevel.trans hrlevel, hlt.le.trans hle⟩
            · rintro ⟨m, hq, hlevel, hle⟩
              obtain heq | hlt' := hle.eq_or_lt
              · exact .inl (h.inj p q n m hp hq hlevel.symm heq).symm
              · obtain ⟨b', hb', hble⟩ := h.disjoint p q n m hp hq hlevel.symm hlt'
                obtain rfl := Option.some.inj (hhigh.symm.trans hb')
                exact .inr ⟨m, hq, hlevel.trans hrlevel.symm, hlow.trans_le hble⟩
          · obtain ⟨-, -, -, hle⟩ := (hmem q).mp hq
            exact hlt.trans_le hle

/-- Each level below the root has a first node. -/
theorem Inv.first (h : Inv t low) {rn : Node K} (hr : t.nodes t.root = some rn) :
    ∀ d ≤ rn.level, ∃ p n, t.nodes p = some n ∧ n.level + d = rn.level ∧ low p = ⊥ := by
  intro d
  induction d with
  | zero =>
      intro _
      obtain ⟨_, -, hlow, -⟩ := h.root
      exact ⟨t.root, rn, hr, rfl, hlow⟩
  | succ d ih =>
      intro hd
      obtain ⟨p, n, hp, hlevel, hlow⟩ := ih (by omega)
      have hinner : 0 < n.level := by omega
      obtain ⟨c, es, hes⟩ := (h.node p n hp).leftmost hinner
      obtain ⟨m, hm, hmlevel, hmlow⟩ := (h.node p n hp).children hinner (low p, c) (by simp [hes])
      exact ⟨c, m, hm, by omega, hmlow.trans hlow⟩

/-- The keys along a chain are in order. -/
theorem Inv.keysOf_sorted (h : Inv t low) {ps : List Nat} {level : Nat}
    (hlevel : ∀ p ∈ ps, ∃ n, t.nodes p = some n ∧ n.level = level)
    (hps : ps.Pairwise (low · < low ·)) :
    (t.keysOf ps).Pairwise (· < ·) := by
  refine List.pairwise_flatMap.mpr ⟨fun p hp => ?_, hps.imp_of_mem fun {p q} hp hq hlt => ?_⟩
  · obtain ⟨n, hn, -⟩ := hlevel p hp
    rw [hn]
    exact List.pairwise_map.mpr (h.node p n hn).within.sorted
  · obtain ⟨n, hn, hnlevel⟩ := hlevel p hp
    obtain ⟨m, hm, hmlevel⟩ := hlevel q hq
    obtain ⟨b, hb, hle⟩ := h.disjoint p q n m hn hm (hnlevel.trans hmlevel.symm) hlt
    rw [hn, hm]
    intro x hx y hy
    obtain ⟨e, he, rfl⟩ := List.mem_map.mp hx
    obtain ⟨e', he', rfl⟩ := List.mem_map.mp hy
    exact ((h.node p n hn).within.upper b hb e he).trans_le
      (hle.trans ((h.node q m hm).within.lower e' he'))

end Chains

end LinkTree

end Lib.BLink
