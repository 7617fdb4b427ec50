import Mathlib.Logic.Relation
import Db7.Index.NoWrap
import Db7.Index.UniqueLive

/-!
# No deadlock among unique inserts

Calls of `InsertUnique` hold the latches of the leaves behind them and wait for the next one to the
right. So a waiting call waits for a leaf right of all that it holds, and the calls that wait for
each other end at one that does not wait (`insertUnique_latches`), which has a next step: no
assertion fails on its way and there is always a leaf to insert into.

* **no leak** (`LatchInv.owner`): a latch that is taken is one that a call under way will give back;
* **left to right** (`Line.low_lt`): the leaves that a call has latched are linked to the one it
  wants.
-/

namespace Db7

open Lib Lib.BLink Function KeyNormEncoder
open BtreeVarlenLayoutLeaf (KeyOf)
open BTreeIndex (Admissible FixedWidth prefixFree_fixedWidth)

/-- The leaf whose latch the call takes next. -/
def UniquePc.wants : UniquePc → Option Nat
  | goRight pid | crab pid .. => some pid
  | scan .. | judge .. | insert .. | free .. => none

namespace Layout

variable {lay : Layout} {left l r : BtreePage} {level newPid child : Nat} {key sentinel : Key}

/-- What a split that comes to its end has done. -/
theorem Splits.done (h : Splits lay left l r level newPid sentinel key child)
    (hleft : InOrder lay left)
    (hkey : Pending lay left key) : SplitDone lay left l r newPid sentinel key child := by
  obtain ⟨l₀, r₀, n, hh, ⟨hside, rfl, hins⟩ | ⟨hside, rfl, hins⟩⟩ := h.halved
  · exact hleft.splitRight hh hkey hside hins
  · exact hleft.splitLeft hh hkey hside hins

end Layout

namespace UniqueIndex

open Layout (leaf)

/-- `t` waits for a latch that `u` has. -/
def WaitsFor (s : UniqueIndex) (t u : TxnId) : Prop :=
  ∃ c, s.calls t = some c ∧ ∃ pid ∈ c.pc.wants, s.latch pid = some u

/-- The leaves `visited` are linked to each other and the last one to `pid`. -/
inductive Line (s : BTreeIndex) : List Nat → Nat → Prop
  | first (pid : Nat) : Line s [] pid
  | next {visited : List Nat} {pid : Nat} {pg : BtreePage} {b : Key} :
      Line s visited pid → s.pages pid = some pg → b ∈ pg.node.high →
      Line s (visited ++ [pid]) pg.rlink

/-- The leaves that a call has latched on its way. -/
def Lined (s : UniqueIndex) (c : UniqueCall) : Prop :=
  match c.pc with
  | .crab pid visited _ => Line s.leaves visited pid
  | .scan pid visited _ _
  | .judge pid visited _ _ _ => ∃ before, visited = before ++ [pid] ∧ Line s.leaves before pid
  | _ => True

/-- What the calls keep about latches and leaves. -/
structure LatchInv (s : UniqueIndex) : Prop where
  owner : ∀ p u, s.latch p = some u → ∃ c, s.calls u = some c ∧ p ∈ c.pc.held
  lined : ∀ t c, s.calls t = some c → s.Lined c
  packed : ∀ p pg, s.leaves.pages p = some pg → Layout.Packed .leaf pg

section Lines

variable {s s' : BTreeIndex} {low : Nat → Key} {S : Key → Prop} {visited : List Nat} {pid p : Nat}

/-- A line goes to the right. -/
theorem Line.low_lt (h : Line s visited pid) (hs : s.Shape low S) :
    ∀ p ∈ visited, low p < low pid := by
  induction h with
  | first pid => simp
  | @next visited pid pg b _ hp hb ih =>
      obtain ⟨-, -, hlt⟩ := hs.inv.at_right (BTreeIndex.tree_nodes hp) hb le_rfl
      intro p hp
      rcases List.mem_append.mp hp with hp | hp
      · exact (ih p hp).trans hlt
      · obtain rfl := List.mem_singleton.mp hp
        exact hlt

/-- It stays while its leaves do. -/
theorem Line.frame (h : Line s visited pid) (hsame : ∀ p ∈ visited, s'.pages p = s.pages p) :
    Line s' visited pid := by
  induction h with
  | first pid => exact .first pid
  | @next visited pid pg b _ hp hb ih =>
      refine .next (ih fun p hmem => hsame p (List.mem_append_left _ hmem)) ?_ hb
      rw [hsame pid (by simp), hp]

end Lines

section Calls

variable {s s' : UniqueIndex} {low : Nat → Key} {S : Key → Prop} {t u : TxnId} {c c' : UniqueCall}

theorem goto_calls_self (s : UniqueIndex) (t : TxnId) (c : UniqueCall) (pc : UniquePc) :
    (s.goto t c pc).calls t = some { c with pc := pc } := update_self ..

theorem Lined.frame (h : s.Lined c)
    (hsame : ∀ p ∈ c.pc.held, s'.leaves.pages p = s.leaves.pages p) : s'.Lined c := by
  unfold Lined at h ⊢
  cases hpc : c.pc with
  | crab pid visited insertPage =>
      simp only [hpc, UniquePc.held] at h hsame ⊢
      exact h.frame hsame
  | scan pid visited insertPage idx =>
      simp only [hpc, UniquePc.held] at h hsame ⊢
      obtain ⟨before, rfl, hline⟩ := h
      exact ⟨before, rfl, hline.frame fun p hp => hsame p (List.mem_append_left _ hp)⟩
  | judge pid visited insertPage idx undo =>
      simp only [hpc, UniquePc.held] at h hsame ⊢
      obtain ⟨before, rfl, hline⟩ := h
      exact ⟨before, rfl, hline.frame fun p hp => hsame p (List.mem_append_left _ hp)⟩
  | goRight pid => trivial
  | insert page visited => trivial
  | free visited success => trivial

/-- The leaf that a waiting call wants is right of those that it holds. -/
theorem Lined.low_lt (h : s.Lined c) (hs : s.leaves.Shape low S) {pid : Nat}
    (hwants : pid ∈ c.pc.wants) :
    ∀ p ∈ c.pc.held, low p < low pid := by
  unfold Lined at h
  cases hpc : c.pc with
  | goRight pid => simp [UniquePc.held]
  | crab pid' visited insertPage =>
      simp only [hpc, UniquePc.wants, UniquePc.held, Option.mem_def,
        Option.some.injEq] at h hwants ⊢
      subst hwants
      exact h.low_lt hs
  | _ => simp [hpc, UniquePc.wants] at hwants

/-- A step of a call changes leaves that it holds, and new ones. -/
theorem CallStep.pages (h : CallStep s t c s') (hl : s.Leaves low S)
    (hok : s.PcOk low t c) {p : Nat} (hp : p ∉ c.pc.held) (hold : s.leaves.pages p ≠ none) :
    s'.leaves.pages p = s.leaves.pages p := by
  have hheld : ∀ {page visited}, c.pc = .insert page visited → p ≠ page := by
    rintro page visited hpc rfl
    simp only [PcOk, hpc] at hok
    exact hp (by rw [hpc]; exact hok.1)
  cases h with
  | insert hpc _ _ => exact update_of_ne (hheld hpc) _ _
  | split hpc hpage _ _ =>
      refine (BTreeIndex.splitPages_pages hpage hl.shape).2.2 p (hheld hpc) ?_
      rintro rfl
      exact hold hl.shape.fresh
  | _ => rfl

/-- The leaves of the call after its step. -/
theorem CallStep.lined (h : CallStep s t c s') (hl : s.Leaves low S) (hlined : s.Lined c)
    (hc' : s'.calls t = some c') : s'.Lined c' := by
  have hgoto : ∀ {s₁ : UniqueIndex} {pc : UniquePc}, (s₁.goto t c pc).calls t = some c' →
      c' = { c with pc := pc } := by
    intro s₁ pc h
    rw [goto_calls, update_self] at h
    exact (Option.some.inj h).symm
  unfold Lined at hlined
  cases h with
  | ret _ => simp at hc'
  | found _ _ _ _ =>
      obtain rfl := hgoto hc'
      exact ⟨[], rfl, .first _⟩
  | crab hpc _ _ =>
      obtain rfl := hgoto hc'
      simp only [hpc] at hlined
      exact ⟨_, rfl, hlined⟩
  | probe hpc _ _ _ =>
      obtain rfl := hgoto hc'
      simp only [hpc] at hlined
      exact hlined
  | @proceed pid visited insertPage idx pg hpc hp _ hproceed =>
      obtain rfl := hgoto hc'
      simp only [hpc] at hlined
      obtain ⟨before, rfl, hline⟩ := hlined
      obtain ⟨x, -, hb⟩ := (hl.highPrefixCmp hp).mp hproceed
      exact hline.next hp hb
  | pass hpc _ =>
      obtain rfl := hgoto hc'
      simp only [hpc] at hlined
      exact hlined
  | right _ _ _ | last _ _ _ _ _ | conflict _ _ | insert _ _ _ | split _ _ _ _ | unlock _ =>
      obtain rfl := hgoto hc'
      trivial

/-- Who has a latch after a step of a call. -/
theorem CallStep.owner (h : CallStep s t c s') (hc : s.calls t = some c)
    (hinv : s.LatchInv) {p : Nat}
    (hp : s'.latch p = some u) : ∃ c', s'.calls u = some c' ∧ p ∈ c'.pc.held := by
  have hk := h.kept
  have hother : u ≠ t → s.latch p = some u → ∃ c', s'.calls u = some c' ∧ p ∈ c'.pc.held := by
    intro hu hold
    rw [hk.others u hu]
    exact hinv.owner p u hold
  have hown : s.latch p = some t → p ∈ c.pc.held := by
    intro hold
    obtain ⟨c', hc', hmem⟩ := hinv.owner p t hold
    obtain rfl := Option.some.inj (hc.symm.trans hc')
    exact hmem
  -- the latches stay, and so do the leaves that the call holds
  have hsame : ∀ {s₁ : UniqueIndex} {pc : UniquePc}, s' = s₁.goto t c pc → s₁.latch = s.latch →
      (p ∈ c.pc.held → p ∈ pc.held) → ∃ c', s'.calls u = some c' ∧ p ∈ c'.pc.held := by
    rintro s₁ pc rfl hlatch hheld
    have hold : s.latch p = some u := hlatch ▸ hp
    by_cases hu : u = t
    · subst hu
      exact ⟨_, goto_calls_self .., hheld (hown hold)⟩
    · exact hother hu hold
  -- a latch is taken
  have htaken : ∀ {pid : Nat} {pc : UniquePc}, s' = (s.lock t pid).goto t c pc → pid ∈ pc.held →
      (p ∈ c.pc.held → p ∈ pc.held) → ∃ c', s'.calls u = some c' ∧ p ∈ c'.pc.held := by
    rintro pid pc rfl hpid hheld
    have hlatch : update s.latch pid (some t) p = some u := hp
    by_cases hpp : p = pid
    · subst hpp
      rw [update_self] at hlatch
      obtain rfl := Option.some.inj hlatch
      exact ⟨_, goto_calls_self .., hpid⟩
    · rw [update_of_ne hpp] at hlatch
      by_cases hu : u = t
      · subst hu
        exact ⟨_, goto_calls_self .., hheld (hown hlatch)⟩
      · exact hother hu hlatch
  cases h with
  | ret hpc =>
      have hold : s.latch p = some u := hp
      refine hother (fun hu => ?_) hold
      subst hu
      simpa [hpc, UniquePc.held] using hown hold
  | @unlock pid visited success hpc =>
      have hlatch : update s.latch pid none p = some u := hp
      have hpp : p ≠ pid := by
        rintro rfl
        simp at hlatch
      rw [update_of_ne hpp] at hlatch
      by_cases hu : u = t
      · subst hu
        have hmem := hown hlatch
        rw [hpc] at hmem
        exact ⟨_, goto_calls_self .., (List.mem_cons.mp hmem).resolve_left hpp⟩
      · exact hother hu hlatch
  | found hpc _ _ _ =>
      refine htaken rfl (List.mem_singleton_self _) fun hmem => ?_
      simp [hpc, UniquePc.held] at hmem
  | crab hpc _ _ =>
      refine htaken rfl (List.mem_append_right _ (List.mem_singleton_self _)) fun hmem => ?_
      rw [hpc] at hmem
      exact List.mem_append_left _ hmem
  | right hpc _ _ | probe hpc _ _ _ | proceed hpc _ _ _ | last hpc _ _ _ _
  | conflict hpc _ | pass hpc _
  | insert hpc _ _ | split hpc _ _ _ =>
      refine hsame rfl rfl fun hmem => ?_
      rw [hpc] at hmem
      exact hmem

/-- Inserts and splits leave packed leaves. -/
theorem CallStep.packed (h : CallStep s t c s') (hl : s.Leaves low S) (hkey : KeyOf S c.key)
    (hfresh : c.pc.waiting = true → ¬ s.leaves.tree.HasKey c.key)
    (hpacked : ∀ p pg, s.leaves.pages p = some pg → Layout.Packed .leaf pg) :
    ∀ p pg, s'.leaves.pages p = some pg → Layout.Packed .leaf pg := by
  have hrange := BTreeIndex.inRange_keyOf hkey
  have habsent : ∀ {page pg}, c.pc.waiting = true → s.leaves.pages page = some pg →
      ∀ e ∈ leaf.entries pg, e.1 ≠ c.key := by
    intro page pg hwaiting hp e he heq
    rw [← hl.entries hp] at he
    exact hfresh hwaiting ⟨page, _, BTreeIndex.tree_nodes hp, hl.level page pg hp, e, he, heq⟩
  intro p q hq
  cases h with
  | @insert page visited pg pg' hpc hp hins =>
      obtain ⟨-, hins⟩ :=
        BtreeVarlenLayoutLeaf.insert_ok (hpacked page pg hp).inv (hl.sorted hp) hins
      have hq : update s.leaves.pages page (some pg') p = some q := hq
      by_cases hpp : p = page
      · subst hpp
        rw [update_self] at hq
        obtain rfl := Option.some.inj hq
        exact (hpacked p pg hp).insert hins hrange (habsent (by rw [hpc]; rfl) hp) fun hinter => by
          cases hinter
      · rw [update_of_ne hpp] at hq
        exact hpacked p q hq
  | @split page visited pg l r sentinel hpc hp _ hsplit =>
      have hlong : c.key.length < 2 ^ 16 := by
        have hmax : db7MaxRowSize = 819 := rfl
        have := hrange.2
        omega
      have hdone :=
        (Layout.split_ok (hpacked page pg hp).inv (hl.sorted hp) hlong (by decide) hsplit).done
        (hpacked page pg hp).inOrder ⟨hrange, habsent (by rw [hpc]; rfl) hp,
          fun hinter => by cases hinter⟩
      obtain ⟨hpl, hpr, hother⟩ := BTreeIndex.splitPages_pages (l := l) (r := r) hp hl.shape
      by_cases hpp : p = page
      · subst hpp
        obtain rfl := Option.some.inj (hpl.symm.trans hq)
        exact hdone.leftPacked
      · by_cases hpn : p = s.leaves.nextPid
        · subst hpn
          obtain rfl := Option.some.inj (hpr.symm.trans hq)
          exact hdone.rightPacked
        · exact hpacked p q ((hother p hpp hpn).symm.trans hq)
  | _ => exact hpacked p q hq

theorem UniqueInv.keyOf (h : s.UniqueInv low S) (hc : s.calls t = some c) : KeyOf S c.key := by
  obtain ⟨hadm, -⟩ := h.admitted t c hc
  exact hadm.keyOf

theorem UniqueInv.fresh (h : s.UniqueInv low S) (hc : s.calls t = some c)
    (hwaiting : c.pc.waiting = true) :
    ¬ s.leaves.tree.HasKey c.key :=
  h.tids.absent t c.tid (by simp [unstored, hc, hwaiting]) c.columns

/-- A step of a call. -/
theorem LatchInv.call (h : s.LatchInv) (hu : s.UniqueInv low S) (hc : s.calls t = some c)
    (hs : CallStep s t c s') :
    s'.LatchInv where
  owner _ _ hp := hs.owner hc h hp
  lined := by
    intro u c' hc'
    by_cases hut : u = t
    · subst hut
      exact hs.lined hu.leaves (h.lined u c hc) hc'
    · rw [hs.kept.others u hut] at hc'
      by_cases hwaiting : c'.pc.waiting = true
      · -- the leaves of others are in their hands
        refine (h.lined u c' hc').frame fun p hp => ?_
        refine hs.pages hu.leaves (hu.calls t c hc) (fun hmem => ?_)
          ((hu.calls u c' hc').held_page hwaiting hp)
        have hlatch := hu.latches.held u c' hc' p hp
        rw [hu.latches.held t c hc p hmem] at hlatch
        exact hut (Option.some.inj hlatch).symm
      · unfold Lined
        cases hpc : c'.pc with
        | free visited success => trivial
        | _ => simp [hpc, UniquePc.waiting] at hwaiting
  packed := hs.packed hu.leaves (hu.keyOf hc) (hu.fresh hc) h.packed

/-! ## The next step -/

/-- A leaf of short keys without deleted records has the bytes of a record below the heap, so that
no offset wraps. -/
theorem foot_le_of_short {pg : BtreePage} (h : Layout.Packed .leaf pg)
    (hkeys : ∀ k ∈ Layout.leaf.keys pg, k.length ≤ 64)
    (hfence : ∀ b ∈ Layout.leaf.high pg, b.length ≤ 64)
    {key : Key} (hkey : key.length ≤ 64) : Layout.leaf.foot key.length ≤ pg.heapOffset := by
  have hfoot : ∀ len, len ≤ 64 → Layout.leaf.foot len ≤ 66 := by
    intro len hlen
    simp only [Layout.foot, Layout.hdrSize, Layout.align]
    omega
  have hlive : Layout.leaf.liveFoot pg ≤ 66 * pg.count := by
    rw [Layout.liveFoot_eq, ← Layout.length_keys .leaf]
    exact Layout.footSum_le_mul fun k hk => hfoot _ (hkeys k hk)
  have hfenceFoot : Layout.leaf.fenceFoot pg ≤ 66 := by
    rw [Layout.fenceFoot_eq]
    cases hhigh : Layout.leaf.high pg with
    | none => exact Nat.zero_le _
    | some b => exact hfoot _ (hfence b hhigh)
  have hpage : db7PageSize = 8192 := rfl
  have hhead : headerSize = 20 := rfl
  have hroom := h.inv.room
  have hfilled := h.filled
  have hrecord := hfoot _ hkey
  omega

/-- A leaf of short keys without deleted records takes the key, or splits. -/
theorem LatchInv.takes (h : s.LatchInv) (hu : s.UniqueInv low S)
    (hshort : ∀ columns, S columns → columns.length + 8 ≤ 64) (hc : s.calls t = some c)
    (hwaiting : c.pc.waiting = true) {page : Nat} {pg : BtreePage}
    (hp : s.leaves.pages page = some pg) (newPid : Nat) :
    (BtreeVarlenLayoutLeaf.hasSpace pg c.key = true → ∃ pg',
      BtreeVarlenLayoutLeaf.insert pg c.key = .ok pg') ∧
      (BtreeVarlenLayoutLeaf.hasSpace pg c.key = false →
        ∃ r, BtreeVarlenLayoutLeaf.split pg (.initHeader 0 newPid) newPid c.key = .ok r) := by
  have hpacked := h.packed page pg hp
  have hkeys := hu.leaves.shape.keys page pg hp
  have hlength : ∀ k, KeyOf S k → k.length ≤ 64 := by
    rintro k ⟨columns, tid, hcolumns, -, -, rfl⟩
    rw [length_buildKey]
    exact hshort columns hcolumns
  have hrange := BTreeIndex.inRange_keyOf (hu.keyOf hc)
  have habsent : ∀ e ∈ Layout.leaf.entries pg, e.1 ≠ c.key := by
    intro e he heq
    rw [← hu.leaves.entries hp] at he
    exact hu.fresh hc hwaiting ⟨page, _, BTreeIndex.tree_nodes hp,
      hu.leaves.level page pg hp, e, he, heq⟩
  have hzero : (0 : Nat) < 2 ^ 32 := by decide
  constructor <;> intro hspace
  · have hfoot : Layout.leaf.foot c.key.length ≤ pg.heapOffset := by
      refine foot_le_of_short hpacked (fun k hk => ?_) (fun b hb => ?_) (hlength _ (hu.keyOf hc))
      · obtain ⟨e, he, rfl⟩ := List.mem_map.mp hk
        rw [← hu.leaves.entries hp] at he
        exact hlength _ (hkeys.leaf (hu.leaves.level page pg hp) e he)
      · rw [← hu.leaves.high hp] at hb
        exact hlength _ (hkeys.high b hb)
    have hroom := (Layout.hasSpace_iff hpacked.inv hfoot).mp hspace
    have hrow : db7MaxRowSize = 819 := rfl
    have hlen := hrange.2
    obtain ⟨pg', hok⟩ := Layout.insertTuple_isOk hpacked.inv hpacked.sorted (by omega) hzero hroom
      fun hinter => by cases hinter
    exact ⟨pg', bind_ok.mpr ⟨(), assertThat_ok.mpr (decide_eq_true hlen), hok⟩⟩
  · obtain ⟨l, r, sentinel, hsplit, -⟩ := Layout.split_complete hpacked.inOrder
      (hpacked.two_le_count hrange.2 hspace) ⟨hrange, habsent, fun hinter => by cases hinter⟩ hzero
        hspace 0 newPid
    exact ⟨_, hsplit⟩

/-- At the end of the sweep there is a leaf to insert into. -/
theorem ScanOk.insertPage_isSome (hl : s.Leaves low S) (hS : PrefixFree S)
    (hadm : Admissible S c.columns c.tid)
    {pid idx : Nat} {visited : List Nat} {insertPage : Option Nat} {pg : BtreePage}
    (h : s.ScanOk low t c pid visited insertPage idx pg)
    (hlast : ¬ BtreeVarlenLayoutLeaf.highPrefixCmp pg c.key = true) :
    (if insertPage = none ∧ ¬ BtreeVarlenLayoutLeaf.hasSplit pg c.key then some pid
      else insertPage) ≠ none := by
  intro hnone
  obtain ⟨b, hb, hle⟩ := Layout.hasSplit_iff.mp ((h.sought.test h.page h.mem).1 hnone)
  rw [← hl.high h.page] at hb
  obtain ⟨u, hu, hcov⟩ := h.covers
  obtain ⟨q, y, hq, hy, -, rfl⟩ := (hl.shape.keys pid pg h.page).high b hb
  obtain rfl := eq_of_between hS hadm.1 hq (hcov _ hb).le hle
  exact hlast ((hl.highPrefixCmp h.page).mpr ⟨y, hy, hb⟩)

/-- A call that does not wait has a next step, as long as there are page ids. -/
theorem LatchInv.runCall_isOk (h : s.LatchInv) (hu : s.UniqueInv low S) (hS : PrefixFree S)
    (hshort : ∀ columns, S columns → columns.length + 8 ≤ 64)
    (hlimit : s.leaves.nextPid < reserveLimit)
    (hc : s.calls t = some c) (hfree : ∀ pid ∈ c.pc.wants, s.latch pid = none) :
    ∃ s', s.runCall t c = .ok s' := by
  have hl := hu.leaves
  have hok := hu.calls t c hc
  have hget : ∀ {p pg}, s.leaves.pages p = some pg → s.leaves.getNode p = .ok pg :=
    fun hp => hl.shape.getNode hp
  unfold PcOk at hok
  unfold runCall
  cases hpc : c.pc with
  | goRight pid =>
      simp only [hpc, UniquePc.wants, Option.mem_def, Option.some.injEq, forall_eq'] at hok hfree ⊢
      obtain ⟨pg, hp, -⟩ := BTreeIndex.page_of_at hok
      rw [if_pos hfree]
      refine exists_bind_ok (hget hp) ?_
      split <;> exact ⟨_, rfl⟩
  | crab pid visited insertPage =>
      simp only [hpc, UniquePc.wants, Option.mem_def, Option.some.injEq, forall_eq'] at hok hfree ⊢
      obtain ⟨⟨n, hn, -⟩, -⟩ := hok
      obtain ⟨pg, hp, -⟩ := BTreeIndex.pages_of_tree hn
      rw [if_pos hfree]
      exact exists_bind_ok (hget hp) ⟨_, rfl⟩
  | scan pid visited insertPage idx =>
      simp only [hpc] at hok ⊢
      obtain ⟨pg, hscan⟩ := hok
      refine exists_bind_ok (hget hscan.page) ?_
      dsimp only
      split
      · exact ⟨_, rfl⟩
      · split <;> rename_i hlast
        · exact ⟨_, rfl⟩
        · split <;> rename_i hpage
          · exact ⟨_, rfl⟩
          · exact absurd hpage (hscan.insertPage_isSome hl hS (hu.admitted t c hc).1 hlast)
  | judge pid visited insertPage idx undo => exact ⟨_, rfl⟩
  | insert page visited =>
      simp only [hpc] at hok ⊢
      obtain ⟨-, ⟨pg, hp, -, -⟩, -⟩ := hok
      obtain ⟨htakes, hsplits⟩ := h.takes hu hshort hc (by rw [hpc]; rfl) hp s.leaves.nextPid
      have hreserve : s.leaves.reserveNode = .ok ({ s.leaves with nextPid := s.leaves.nextPid + 1 },
          s.leaves.nextPid) :=
        bind_ok.mpr ⟨(), assertThat_ok.mpr (decide_eq_true hlimit), rfl⟩
      refine exists_bind_ok (hget hp) ?_
      split <;> rename_i hspace
      · obtain ⟨pg', hins⟩ := htakes hspace
        exact exists_bind_ok hins ⟨_, rfl⟩
      · obtain ⟨r, hsplit⟩ := hsplits (Bool.eq_false_iff.mpr hspace)
        exact exists_bind_ok hreserve (exists_bind_ok hsplit ⟨_, rfl⟩)
  | free visited success => exact ⟨_, rfl⟩

/-- A call that is waited for, and waits itself, waits for a leaf right of the one that is wanted of
it. -/
theorem LatchInv.wants_lt (h : s.LatchInv) (hu : s.UniqueInv low S) {pid pid' : Nat}
    (hlatch : s.latch pid = some t)
    (hc : s.calls t = some c) (hwants : pid' ∈ c.pc.wants) : low pid < low pid' := by
  obtain ⟨c', hc', hmem⟩ := h.owner pid t hlatch
  obtain rfl := Option.some.inj (hc.symm.trans hc')
  exact (h.lined t c hc).low_lt hu.leaves.shape hwants pid hmem

/-- A wanted leaf is a page of the index. -/
theorem PcOk.wanted_page (hok : s.PcOk low t c) {pid : Nat} (hwants : pid ∈ c.pc.wants) :
    s.leaves.pages pid ≠ none := by
  unfold PcOk at hok
  cases hpc : c.pc with
  | goRight pid' =>
      simp only [hpc, UniquePc.wants, Option.mem_def, Option.some.injEq] at hok hwants
      subst hwants
      obtain ⟨pg, hp, -⟩ := BTreeIndex.page_of_at hok
      simp [hp]
  | crab pid' visited insertPage =>
      simp only [hpc, UniquePc.wants, Option.mem_def, Option.some.injEq] at hok hwants
      subst hwants
      obtain ⟨⟨n, hn, -⟩, -⟩ := hok
      obtain ⟨pg, hp, -⟩ := BTreeIndex.pages_of_tree hn
      simp [hp]
  | _ => simp [hpc, UniquePc.wants] at hwants

/-- The leaves right of the one that a call waits for. -/
noncomputable def waitRank (s : UniqueIndex) (low : Nat → Key) (t : TxnId) : Nat :=
  match (s.calls t).bind fun c => c.pc.wants with
  | some pid => s.leaves.tree.toTheRight low s.leaves.nextPid pid
  | none => 0

theorem LatchInv.waitRank_lt (h : s.LatchInv) (hu : s.UniqueInv low S) {v : TxnId}
    (htu : s.WaitsFor t u) (huv : s.WaitsFor u v) : s.waitRank low u < s.waitRank low t := by
  obtain ⟨c, hc, pid, hwants, hlatch⟩ := htu
  obtain ⟨c', hc', pid', hwants', -⟩ := huv
  have hlt := h.wants_lt hu hlatch hc' hwants'
  have hpage := (hu.calls u c' hc').wanted_page hwants'
  obtain ⟨pg, hp⟩ := Option.ne_none_iff_exists'.mp hpage
  have hrank : s.waitRank low t = s.leaves.tree.toTheRight low s.leaves.nextPid pid := by
    simp only [waitRank, hc, Option.bind_some, Option.mem_def.mp hwants]
  have hrank' : s.waitRank low u = s.leaves.tree.toTheRight low s.leaves.nextPid pid' := by
    simp only [waitRank, hc', Option.bind_some, Option.mem_def.mp hwants']
  rw [hrank, hrank']
  refine LinkTree.toTheRight_lt ?_ (hu.leaves.shape.pid pid' pg hp).2 hlt
  rw [BTreeIndex.tree_nodes hp]
  simp

end Calls

section Runs

variable {s s' : UniqueIndex} {low : Nat → Key} {S : Key → Prop}

theorem latchInv_init (h : s.Init) : s.LatchInv := by
  obtain ⟨-, hleaves, hlatch, -, hcalls⟩ := h
  refine ⟨fun p u hp => ?_, fun t c hc => ?_, fun p pg hp => ?_⟩
  · rw [hlatch] at hp
    cases hp
  · rw [hcalls] at hc
    cases hc
  · rw [hleaves] at hp
    have hpg : pg = .initHeader 0 1 := by
      by_cases hp1 : p = 1 <;> simp [BTreeIndex.init, hp1] at hp
      exact hp.symm
    subst hpg
    refine ⟨Layout.pageInv_initHeader 0 1, .nil, rfl, fun i k hk => ?_, fun b hb => ?_⟩
    · cases hk
    · cases hb

theorem latchInv_step {a : UniqueAction} (h : s.LatchInv) (hu : s.UniqueInv low S)
    (hs : s.step a = some s') :
    s'.LatchInv := by
  cases a with
  | table a =>
      simp only [step, Option.ite_none_right_eq_some] at hs
      obtain ⟨-, hs⟩ := hs
      obtain ⟨db, -, rfl⟩ := Option.map_eq_some_iff.mp hs
      exact ⟨h.owner, fun t c hc => h.lined t c hc, h.packed⟩
  | insertUnique t columns tid start =>
      simp only [step, Option.ite_none_right_eq_some, Option.isNone_iff_eq_none] at hs
      obtain ⟨⟨-, hfree, -⟩, hs⟩ := hs
      obtain rfl := Option.some.inj hs
      refine ⟨fun p u hp => ?_, fun u c hc => ?_, h.packed⟩
      · obtain ⟨c, hc, hmem⟩ := h.owner p u hp
        have hut : u ≠ t := by
          rintro rfl
          rw [hfree] at hc
          cases hc
        exact ⟨c, (update_of_ne hut _ _).trans hc, hmem⟩
      · by_cases hut : u = t
        · subst hut
          obtain rfl : (⟨columns, tid, .goRight start⟩ : UniqueCall) = c := by simpa using hc
          trivial
        · exact h.lined u c (by simpa [hut] using hc)
  | run t =>
      simp only [step] at hs
      cases hcall : s.calls t with
      | none => simp [hcall] at hs
      | some c =>
          simp only [hcall] at hs
          cases hrun : s.runCall t c with
          | error e => simp [hrun] at hs
          | ok s₁ =>
              simp only [hrun, Option.some.injEq] at hs
              subst hs
              exact h.call hu hcall (callStep_of_run hrun)

theorem latchInv_reachable (hS : PrefixFree S)
    (hr : uniqueSystem.ReachableBy (Regular signBit S) s) :
    ∃ low, s.UniqueInv low S ∧ s.LatchInv := by
  refine hr.invariant (P := fun s => ∃ low, s.UniqueInv low S ∧ s.LatchInv)
    (fun s hinit => ⟨_, uniqueInv_init hinit, latchInv_init hinit⟩) ?_
  rintro s a s' ⟨low, hu, h⟩ hc hs
  obtain ⟨low', hu'⟩ := uniqueInv_step hS hu hc hs
  exact ⟨low', hu', latchInv_step h hu hs⟩

/-- **Unique inserts do not deadlock**, and give back what they latch. A leaf is latched exactly
while it is in the hands of a call. As long as there are page ids, a call without a next step waits
for a latch, and the calls that wait for each other end at one with a next step. Keys are at most as
long as those of the indexes of `AttrsFor`. -/
theorem insertUnique_latches (hS : PrefixFree S)
    (hshort : ∀ columns, S columns → columns.length + 8 ≤ 64)
    (hr : uniqueSystem.ReachableBy (Regular signBit S) s) :
    (∀ pid u, s.latch pid = some u ↔ ∃ c, s.calls u = some c ∧ pid ∈ c.pc.held) ∧
      (s.leaves.nextPid < reserveLimit → ∀ t c, s.calls t = some c →
        ((∃ u, s.WaitsFor t u) ∨ ∃ s', s.step (.run t) = some s') ∧
          ∃ u s', Relation.ReflTransGen s.WaitsFor t u ∧ s.step (.run u) = some s') := by
  obtain ⟨low, hu, h⟩ := latchInv_reachable hS hr
  refine ⟨fun pid u => ⟨h.owner pid u, fun ⟨c, hc, hmem⟩ => hu.latches.held u c hc pid hmem⟩,
    fun hlimit t c hc => ?_⟩
  have hstep : ∀ {u c}, s.calls u = some c → (∀ v, ¬ s.WaitsFor u v) → ∃ s',
      s.step (.run u) = some s' := by
    intro u c hc hfree
    obtain ⟨s', hrun⟩ := h.runCall_isOk hu hS hshort hlimit hc fun pid hwants => by
      cases hlatch : s.latch pid with
      | none => rfl
      | some v => exact absurd ⟨c, hc, pid, hwants, hlatch⟩ (hfree v)
    exact ⟨s', by simp only [step, hc, hrun]⟩
  refine ⟨or_iff_not_imp_left.mpr fun hfree => hstep hc (not_exists.mp hfree), ?_⟩
  obtain ⟨u, hchain, hfree⟩ := exists_not_waiting (fun _ _ _ htu huv => h.waitRank_lt hu htu huv) t
  -- who is waited for is in a call
  have hcall : ∃ c, s.calls u = some c := by
    cases hchain with
    | refl => exact ⟨c, hc⟩
    | tail _ hlast =>
        obtain ⟨_, -, pid, -, hlatch⟩ := hlast
        obtain ⟨c', hc', -⟩ := h.owner pid u hlatch
        exact ⟨c', hc'⟩
  obtain ⟨c', hc'⟩ := hcall
  obtain ⟨s', hs'⟩ := hstep hc' hfree
  exact ⟨u, s', hchain, hs'⟩

/-- Transaction 0 has latched the first leaf, transaction 1 waits for it. -/
def waitForLeaf : List UniqueAction :=
  begins 0 ++ begins 1 ++ [.table (.insert 0 1 1 []), .table (.insert 1 1 1 []),
    .insertUnique 0 (toBE 8 1) (rowId 0) 1, .run 0, .insertUnique 1 (toBE 8 1) (rowId 1) 1]

/-- The call of `t` wants the first leaf. -/
def WantsFirst (s : UniqueIndex) (t : TxnId) : Prop :=
  ∃ c ∈ s.calls t, c.pc.wants = some 1 ∧ s.leaves.nextPid < reserveLimit

instance (s : UniqueIndex) (t : TxnId) : Decidable (s.WantsFirst t) :=
  Option.decidableExistsMem (s.calls t)

theorem insertUnique_latches_waitForLeaf : ∃ s u s',
    uniqueSystem.exec (Regular signBit (FixedWidth 8)) fresh waitForLeaf = some s ∧ s.WaitsFor 1 0 ∧
      Relation.ReflTransGen s.WaitsFor 1 u ∧ s.step (.run u) = some s' := by
  have hrun : (uniqueSystem.exec (Regular signBit (FixedWidth 8)) fresh waitForLeaf).map (fun s =>
      (decide (s.WantsFirst 1), s.latch 1)) = some (true, some 0) := by
    decide +kernel
  obtain ⟨s, hexec, hview⟩ := Option.map_eq_some_iff.mp hrun
  obtain ⟨hfirst, hlatch⟩ := Prod.mk.inj hview
  obtain ⟨c, hc, hwants, hlimit⟩ := of_decide_eq_true hfirst
  have hshort : ∀ columns, FixedWidth 8 columns → columns.length + 8 ≤ 64 := by
    intro columns hlength
    have hlength : columns.length = 8 := hlength
    omega
  obtain ⟨-, hnext⟩ :=
    insertUnique_latches (prefixFree_fixedWidth 8) hshort ⟨fresh, fresh_init, .of_exec _ hexec⟩
  obtain ⟨-, u, s', hchain, hstep⟩ := hnext hlimit 1 c hc
  exact ⟨s, u, s', hexec, ⟨c, hc, 1, hwants, hlatch⟩, hchain, hstep⟩

end Runs

end UniqueIndex

end Db7
