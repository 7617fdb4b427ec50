import Mathlib.Logic.Equiv.Basic
import Db7.Index.SeparatorLevels
import Db7.Index.SingleWriter

/-!
# Inserts and deletes by any number of threads

A pair is put into the index by one insert and taken out by one delete, and then it may be inserted
again. At any moment a pair that was begun is in one place: in the hands of an insert that has not
reached its leaf, in a leaf, or in the hands of a delete that has left its leaf.

* **one place** (`Accounts.unique`, `Accounts.owned`): an insert never finds its pair in a leaf;
* **every run** (`sound_updates`): so the pages keep their shape, as long as second descents find
  their root.
-/

namespace Db7

open Lib Lib.BLink Function KeyNormEncoder
open BtreeVarlenLayoutLeaf (KeyOf)

namespace BTreeIndex

/-- An insert brings a pair that is not in the index, nor in the hands of another call; a second
descent finds a root on or above its level. -/
def UpdatesApart (S : Key → Prop) (s : BTreeIndex) (a : BtreeAction) : Prop :=
  match a with
  | .invoke _ (.insert columns tid) => Admissible S columns tid ∧ buildKey columns tid ∉ s.begun
  | a => s.RootAbove a

instance (S : Key → Prop) [DecidablePred S] (s : BTreeIndex) :
    (a : BtreeAction) → Decidable (UpdatesApart S s a)
  | .invoke _ (.insert columns tid) => inferInstanceAs (Decidable (Admissible S columns tid ∧ _))
  | .invoke t (.delete columns tid) =>
      inferInstanceAs (Decidable (s.RootAbove (.invoke t (.delete columns tid))))
  | .invoke t (.get columns) => inferInstanceAs (Decidable (s.RootAbove (.invoke t (.get columns))))
  | .run t => inferInstanceAs (Decidable (s.RootAbove (.run t)))
  | .ret t => inferInstanceAs (Decidable (s.RootAbove (.ret t)))

/-- The pair is in the hands of the thread. -/
def HeldBy (k : Key) (th : BtreeThread) : Prop :=
  match th.op with
  | .insert columns tid => th.pc.searching = true ∧ k = buildKey columns tid
  | .delete columns tid => th.pc.searching = false ∧ th.pc ≠ .idle ∧ k = buildKey columns tid
  | .get _ => False

/-- Where a pair is: in a leaf (`none`) or in the hands of a thread. -/
def Holds (s : BTreeIndex) (k : Key) : Option Nat → Prop
  | none => s.tree.HasKey k
  | some t => HeldBy k (s.threads t)

/-- The pairs that were begun are each in one place. -/
structure Accounts (s : BTreeIndex) (S : Key → Prop) : Prop where
  unique : ∀ k x y, s.Holds k x → s.Holds k y → x = y
  begun : ∀ k x, s.Holds k x → k ∈ s.begun
  owned : ∀ k ∈ s.begun, ∃ x, s.Holds k x
  nodup : s.begun.Nodup
  keyOf : ∀ t columns tid, (s.threads t).op = .insert columns tid →
    (s.threads t).pc.searching = true →
    KeyOf S (buildKey columns tid)

section Accounts

variable {s s' : BTreeIndex} {low low' : Nat → Key} {S : Key → Prop} {t : Nat} {op : IndexOp}

theorem heldBy_insert {th : BtreeThread} {columns : Key} {tid : Nat}
    (hop : th.op = .insert columns tid) (k : Key) :
    HeldBy k th ↔ th.pc.searching = true ∧ k = buildKey columns tid := by
  unfold HeldBy
  rw [hop]

theorem heldBy_delete {th : BtreeThread} {columns : Key} {tid : Nat}
    (hop : th.op = .delete columns tid) (k : Key) :
    HeldBy k th ↔ th.pc.searching = false ∧ th.pc ≠ .idle ∧ k = buildKey columns tid := by
  unfold HeldBy
  rw [hop]

theorem heldBy_get {th : BtreeThread} {columns : Key} (hop : th.op = .get columns) (k : Key) :
    ¬ HeldBy k th := by
  unfold HeldBy
  rw [hop]
  exact id

/-- The threads of `s'` but `t` are those of `s`, and so are the leaves. -/
theorem holds_others (hothers : ∀ u, u ≠ t → s'.threads u = s.threads u)
    (htree : s'.tree = s.tree) (k : Key)
    {x : Option Nat} (hx : x ≠ some t) : s'.Holds k x ↔ s.Holds k x := by
  cases x with
  | none =>
      show s'.tree.HasKey k ↔ s.tree.HasKey k
      rw [htree]
  | some u =>
      show HeldBy k (s'.threads u) ↔ HeldBy k (s.threads u)
      rw [hothers u fun heq => hx (congrArg some heq)]

theorem not_holds_init (t : Nat) (k : Key) : ¬ init.Holds k (some t) :=
  @heldBy_get (init.threads t) [] rfl k

theorem accounts_init : Accounts init S where
  unique := by
    intro k x y hx hy
    cases x with
    | none => cases y with
      | none => rfl
      | some u => exact absurd hy (not_holds_init u k)
    | some t => exact absurd hx (not_holds_init t k)
  begun := by
    intro k x hx
    cases x with
    | none => exact ledger_init (S := S).begun k hx
    | some t => exact absurd hx (not_holds_init t k)
  owned := by simp [init]
  nodup := by simp [init]
  keyOf := by simp [init]

/-- An insert does not find its pair. -/
theorem Accounts.callOk (h : Accounts s S) (t : Nat) : CallOk s S t := by
  intro columns tid hop hsearch
  have hhold : s.Holds (buildKey columns tid) (some t) := (heldBy_insert hop _).mpr ⟨hsearch, rfl⟩
  exact ⟨h.keyOf t columns tid hop hsearch, fun hk => absurd (h.unique _ none _ hk hhold) (by simp)⟩

/-- A step at which the pairs change places. -/
theorem Accounts.permuted (h : Accounts s S) (place : Key → Equiv.Perm (Option Nat))
    (hholds : ∀ k x, s'.Holds k x ↔ s.Holds k (place k x)) (hbegun : s'.begun = s.begun)
    (hinsert : ∀ u columns tid, (s'.threads u).op = .insert columns tid →
      (s'.threads u).pc.searching = true →
      (s.threads u).op = .insert columns tid ∧ (s.threads u).pc.searching = true) :
        Accounts s' S where
  unique k x y hx hy :=
    (place k).injective (h.unique k _ _ ((hholds k x).mp hx) ((hholds k y).mp hy))
  begun k x hx := hbegun ▸ h.begun k _ ((hholds k x).mp hx)
  owned k hk := by
    obtain ⟨x, hx⟩ := h.owned k (hbegun ▸ hk)
    exact ⟨(place k).symm x, (hholds k _).mpr (by simpa using hx)⟩
  nodup := hbegun ▸ h.nodup
  keyOf u columns tid hop hsearch := by
    obtain ⟨hop, hsearch⟩ := hinsert u columns tid hop hsearch
    exact h.keyOf u columns tid hop hsearch

/-- A delete that has found its leaf has found the pair there. -/
theorem hasKey_of_deleted {columns : Key} {tid : Nat}
    (hop : (s.threads t).op = .delete columns tid) (hok : PcOk s.tree low S (s.threads t))
    (hs : s.runThread t (s.threads t).pc = .ok s') (hsearch : (s.threads t).pc.searching = true)
    (hplaced : (s'.threads t).pc.searching = false) : s.tree.HasKey (buildKey columns tid) := by
  cases hpc : (s.threads t).pc with
  | loadRoot =>
      simp only [hpc, runThread, Except.ok.injEq] at hs
      subst hs
      rw [goto_eq, moved_threads] at hplaced
      simp [BtreePc.searching] at hplaced
  | descend pid =>
      simp only [hpc, runThread] at hs
      obtain ⟨pg, -, hcase⟩ := descendStep_cases hs
      rcases hcase with ⟨-, _, hget, -⟩ | ⟨-, -, rfl⟩ | ⟨-, -, rfl⟩ | ⟨-, _, -, rfl⟩
      · simp [hop] at hget
      all_goals
        rw [moved_threads] at hplaced
        simp [BtreePc.searching] at hplaced
  | leaf pid =>
      simp only [hpc, runThread, hop] at hs
      simp only [PcOk, hpc] at hok
      obtain ⟨pg, hp, hcase⟩ := deleteStep_cases hs
      obtain ⟨pg', hp', hlevel, -⟩ := page_of_at hok.1
      obtain rfl := Option.some.inj (hp.symm.trans hp')
      rcases hcase with ⟨-, rfl⟩ | ⟨-, pg', hdel, -⟩
      · rw [moved_threads] at hplaced
        simp [BtreePc.searching] at hplaced
      · obtain ⟨e, he, heq⟩ := BtreeVarlenLayoutLeaf.mem_of_delete hdel
        refine ⟨pid, _, tree_nodes hp, hlevel, e, ?_, heq⟩
        show e ∈ pg.layout.entries pg
        rw [BtreePage.layout_leaf hlevel]
        exact he
  | _ => simp [hpc, BtreePc.searching] at hsearch

/-- A call that brings no pair. -/
theorem Accounts.called (h : Accounts s S) (hi : Invoked s s' t op) (hbegun : s'.begun = s.begun)
    (hinsert : ∀ columns tid, op ≠ .insert columns tid) (hbefore : ∀ k, ¬ s.Holds k (some t))
    (hafter : ∀ k, ¬ s'.Holds k (some t)) : Accounts s' S := by
  refine h.permuted (fun _ => .refl _) (fun k x => ?_) hbegun fun u columns tid hop hsearch => ?_
  · by_cases hx : x = some t
    · subst hx
      exact ⟨fun hk => absurd hk (hafter k), fun hk => absurd hk (hbefore k)⟩
    · exact holds_others hi.others hi.tree k hx
  · by_cases hu : u = t
    · subst hu
      rw [hi.thread] at hop
      exact absurd hop (hinsert columns tid)
    · rw [hi.others u hu] at hop hsearch
      exact ⟨hop, hsearch⟩

theorem Accounts.invoke (h : Accounts s S) (hc : UpdatesApart S s (.invoke t op))
    (hs : s.step (.invoke t op) = some s') : Accounts s' S := by
  have hi := invoked_of_step hs
  -- the thread had no pair in its hands
  have hidle : ∀ k, ¬ s.Holds k (some t) := by
    intro k hk
    have hk : HeldBy k (s.threads t) := hk
    cases hop : (s.threads t).op with
    | insert columns tid => simp [heldBy_insert hop, hi.idle, BtreePc.searching] at hk
    | delete columns tid => simp [heldBy_delete hop, hi.idle] at hk
    | get columns => exact heldBy_get hop k hk
  have hothers := fun k => @holds_others s s' t hi.others hi.tree k
  cases op with
  | insert columns tid =>
      obtain ⟨hadm, hnew⟩ := hc
      have hbegun : s'.begun = buildKey columns tid :: s.begun := hi.begun
      have hself : ∀ k, s'.Holds k (some t) ↔ k = buildKey columns tid := by
        intro k
        show HeldBy k (s'.threads t) ↔ _
        rw [hi.thread, heldBy_insert rfl]
        simp [BtreePc.searching]
      -- nobody else has the new pair
      have hfree : ∀ x, x ≠ some t → ¬ s'.Holds (buildKey columns tid) x := fun x hx hk =>
        hnew (h.begun _ x ((hothers _ hx).mp hk))
      refine ⟨fun k x y hx hy => ?_, fun k x hx => ?_, fun k hk => ?_, ?_,
        fun u columns' tid' hop hsearch => ?_⟩
      · by_cases hxt : x = some t
        · subst hxt
          obtain rfl := (hself k).mp hx
          by_contra hne
          exact hfree y (Ne.symm hne) hy
        · by_cases hyt : y = some t
          · subst hyt
            obtain rfl := (hself k).mp hy
            exact absurd hx (hfree x hxt)
          · exact h.unique k x y ((hothers k hxt).mp hx) ((hothers k hyt).mp hy)
      · rw [hbegun]
        by_cases hxt : x = some t
        · subst hxt
          exact (hself k).mp hx ▸ List.mem_cons_self
        · exact List.mem_cons_of_mem _ (h.begun k x ((hothers k hxt).mp hx))
      · rw [hbegun] at hk
        rcases List.mem_cons.mp hk with rfl | hk
        · exact ⟨some t, (hself _).mpr rfl⟩
        · obtain ⟨x, hx⟩ := h.owned k hk
          have hxt : x ≠ some t := by
            rintro rfl
            exact hidle k hx
          exact ⟨x, (hothers k hxt).mpr hx⟩
      · rw [hbegun]
        exact List.nodup_cons.mpr ⟨hnew, h.nodup⟩
      · by_cases hu : u = t
        · subst hu
          rw [hi.thread] at hop
          obtain ⟨rfl, rfl⟩ := IndexOp.insert.inj hop
          exact hadm.keyOf
        · rw [hi.others u hu] at hop hsearch
          exact h.keyOf u columns' tid' hop hsearch
  | delete columns tid =>
      refine h.called hi hi.begun (by simp) hidle fun k hk => ?_
      have hk : HeldBy k (s'.threads t) := hk
      rw [hi.thread, heldBy_delete rfl] at hk
      simp [BtreePc.searching] at hk
  | get columns =>
      refine h.called hi hi.begun (by simp) hidle fun k hk => ?_
      have hk : HeldBy k (s'.threads t) := hk
      rw [hi.thread] at hk
      exact heldBy_get rfl k hk

theorem Accounts.ret (h : Accounts s S) (hs : s.step (.ret t) = some s') : Accounts s' S := by
  have hr := returned_of_step hs
  obtain ⟨results, hdone⟩ := hr.done
  have hplace : (s.threads t).pc.searching = false := by rw [hdone]; rfl
  have hafter : ∀ k, ¬ s'.Holds k (some t) := by
    intro k hk
    have hk : HeldBy k (s'.threads t) := hk
    have hpc : (s'.threads t).pc = .idle := by rw [hr.thread]
    cases hop : (s'.threads t).op with
    | insert columns tid => simp [heldBy_insert hop, hpc, BtreePc.searching] at hk
    | delete columns tid => simp [heldBy_delete hop, hpc] at hk
    | get columns => exact heldBy_get hop k hk
  have hothers := fun k => @holds_others s s' t hr.others hr.tree k
  have hkeyOf : ∀ u columns tid, (s'.threads u).op = .insert columns tid →
      (s'.threads u).pc.searching = true →
      (s.threads u).op = .insert columns tid ∧ (s.threads u).pc.searching = true := by
    intro u columns tid hop hsearch
    by_cases hu : u = t
    · subst hu
      rw [hr.thread] at hsearch
      simp [BtreePc.searching] at hsearch
    · rw [hr.others u hu] at hop hsearch
      exact ⟨hop, hsearch⟩
  have hsame : s'.begun = s.begun → (∀ k, ¬ s.Holds k (some t)) → Accounts s' S := by
    intro hbegun hbefore
    refine h.permuted (fun _ => .refl _) (fun k x => ?_) hbegun hkeyOf
    by_cases hx : x = some t
    · subst hx
      exact ⟨fun hk => absurd hk (hafter k), fun hk => absurd hk (hbefore k)⟩
    · exact hothers k hx
  cases hop : (s.threads t).op with
  | insert columns tid =>
      refine hsame (by rw [hr.begun, hop]; rfl) fun k hk => ?_
      have hk := (heldBy_insert hop k).mp hk
      exact absurd (hplace.symm.trans hk.1) (by simp)
  | get columns => exact hsame (by rw [hr.begun, hop]; rfl) fun k hk => heldBy_get hop k hk
  | delete columns tid =>
      -- the pair was in the hands of the delete, and is gone now
      have hbegun : s'.begun = s.begun.erase (buildKey columns tid) := by rw [hr.begun, hop]; rfl
      have hheld : s.Holds (buildKey columns tid) (some t) :=
        (heldBy_delete hop _).mpr ⟨hplace, by simp [hdone], rfl⟩
      have hne : ∀ {k x}, s'.Holds k x → x ≠ some t ∧ s.Holds k x := by
        intro k x hx
        have hxt : x ≠ some t := by
          rintro rfl
          exact hafter k hx
        exact ⟨hxt, (hothers k hxt).mp hx⟩
      refine ⟨fun k x y hx hy => h.unique k x y (hne hx).2 (hne hy).2, fun k x hx => ?_,
        fun k hk => ?_, ?_,
        fun u columns' tid' hop' hsearch => ?_⟩
      · obtain ⟨hxt, hx⟩ := hne hx
        rw [hbegun]
        refine (List.mem_erase_of_ne ?_).mpr (h.begun k x hx)
        rintro rfl
        exact hxt (h.unique _ x _ hx hheld)
      · rw [hbegun] at hk
        obtain ⟨hkne, hk⟩ := (List.Nodup.mem_erase_iff h.nodup).mp hk
        obtain ⟨x, hx⟩ := h.owned k hk
        refine ⟨x, (hothers k ?_).mpr hx⟩
        rintro rfl
        exact hkne ((heldBy_delete hop k).mp hx).2.2
      · rw [hbegun]
        exact h.nodup.erase _
      · obtain ⟨hop', hsearch⟩ := hkeyOf u columns' tid' hop' hsearch
        exact h.keyOf u columns' tid' hop' hsearch

theorem afterSplit_not_idle (s : BTreeIndex) (t level : Nat) (sentinel : Key) (pid newPid : Nat) :
    ((s.afterSplit t level sentinel pid newPid).threads t).pc ≠ .idle := by
  rcases afterSplit_eq s t level pid newPid sentinel with ⟨pc, heq, -, rfl⟩ | ⟨top,
    rest, -, heq⟩ <;>
    simp [heq, moved_threads]

/-- No step of a thread ends its call. -/
theorem run_not_idle (hs : s.runThread t (s.threads t).pc = .ok s') :
    (s'.threads t).pc ≠ .idle := by
  cases hpc : (s.threads t).pc with
  | idle => simp [hpc, runThread] at hs
  | done => simp [hpc, runThread] at hs
  | loadRoot =>
      simp only [hpc, runThread, Except.ok.injEq] at hs
      simp [← hs, goto]
  | descend pid =>
      obtain ⟨pg, -, hcase⟩ := descendStep_cases (by simpa [hpc, runThread] using hs)
      rcases hcase with ⟨-, _, -, rfl⟩ | ⟨-, -, rfl⟩ | ⟨-, -, rfl⟩ | ⟨-, _, -, rfl⟩ <;>
        simp [moved_threads]
  | leaf pid =>
      simp only [hpc, runThread] at hs
      cases hop : (s.threads t).op with
      | insert columns tid =>
          obtain ⟨pg, -, hcase⟩ := insertStep_cases (by simpa [hop] using hs)
          rcases hcase with ⟨-, rfl⟩ | ⟨-, -, _, -, rfl⟩ | ⟨-, -, -, l, r, sentinel, -, rfl⟩
          · simp [moved_threads]
          · simp [moved_threads]
          · exact afterSplit_not_idle _ t l.level _ pid _
      | delete columns tid =>
          obtain ⟨pg, -, hcase⟩ := deleteStep_cases (by simpa [hop] using hs)
          rcases hcase with ⟨-, rfl⟩ | ⟨-, _, -, rfl⟩ <;> simp [moved_threads]
      | get columns => simp [hop] at hs
  | root level sentinel pid newPid =>
      rcases rootStep_cases (by simpa [hpc, runThread] using hs) with ⟨-, -, _, -,
        rfl⟩ | ⟨-, rfl⟩ <;>
        simp [moved_threads]
  | reloadRoot dropLevel sentinel newPid =>
      obtain ⟨pg, -, rfl⟩ := reloadRootStep_cases (by simpa [hpc, runThread] using hs)
      simp [moved_threads]
  | redescend dropLevel sentinel newPid pid level =>
      obtain ⟨pg, -, -, hcase⟩ := redescendStep_cases (by simpa [hpc, runThread] using hs)
      rcases hcase with ⟨-, rfl⟩ | ⟨-, -, rfl⟩ | ⟨-, _, -, rfl⟩ <;> simp [moved_threads]
  | inter sentinel value pid =>
      obtain ⟨pg, -, hcase⟩ := interStep_cases (by simpa [hpc, runThread] using hs)
      rcases hcase with ⟨-, rfl⟩ | ⟨-, -, _, -, rfl⟩ | ⟨-, -, -, l, r, sentinel', -, rfl⟩
      · simp [moved_threads]
      · simp [moved_threads]
      · exact afterSplit_not_idle _ t l.level _ pid _
  | scan pid results =>
      obtain ⟨pg, -, hcase⟩ := scanStep_cases (by simpa [hpc, runThread] using hs)
      rcases hcase with ⟨-, rfl⟩ | ⟨-, -, rfl⟩ | ⟨-, -, rfl⟩ <;> simp [moved_threads]
  | follow pid results =>
      obtain ⟨pg, -, hcase⟩ := followStep_cases (by simpa [hpc, runThread] using hs)
      rcases hcase with ⟨-, rfl⟩ | ⟨-, rfl⟩ <;> simp [moved_threads]

/-- The leaf section takes the pair from the insert into the leaf, or from there to the delete. -/
theorem Accounts.run (h : Accounts s S) (hok : PcOk s.tree low S (s.threads t))
    (he : Effect s s' low low' S t) (hs : s.step (.run t) = some s') : Accounts s' S := by
  have hrun := runThread_of_step hs
  have hne := running_of_step hs
  have hne' := run_not_idle hrun
  have hothers : ∀ k u, u ≠ t → (s'.Holds k (some u) ↔ s.Holds k (some u)) := by
    intro k u hu
    show HeldBy k (s'.threads u) ↔ HeldBy k (s.threads u)
    rw [he.others u hu]
  have hinsert : ∀ u columns tid, (s'.threads u).op = .insert columns tid →
      (s'.threads u).pc.searching = true →
      (s.threads u).op = .insert columns tid ∧ (s.threads u).pc.searching = true := by
    intro u columns tid hop hsearch
    by_cases hu : u = t
    · subst hu
      rw [he.op] at hop
      rcases he.keys with ⟨hsame | ⟨_, hget⟩, -⟩ | ⟨-, hplaced, -⟩
      · exact ⟨hop, hsame ▸ hsearch⟩
      · simp [hop] at hget
      · simp [hplaced] at hsearch
    · rw [he.others u hu] at hop hsearch
      exact ⟨hop, hsearch⟩
  have hkept :
      ((s'.threads t).pc.searching = (s.threads t).pc.searching ∨ ∃ p, (s.threads t).op = .get p) →
      ∀ k, s'.Holds k (some t) ↔ s.Holds k (some t) := by
    intro hsame k
    show HeldBy k (s'.threads t) ↔ HeldBy k (s.threads t)
    cases hop : (s.threads t).op with
    | insert columns tid =>
        obtain hsame | ⟨_, hget⟩ := hsame
        · rw [heldBy_insert (he.op.trans hop), heldBy_insert hop, hsame]
        · simp [hop] at hget
    | delete columns tid =>
        obtain hsame | ⟨_, hget⟩ := hsame
        · rw [heldBy_delete (he.op.trans hop), heldBy_delete hop, hsame]
          simp [hne, hne']
        · simp [hop] at hget
    | get columns => exact iff_of_false (heldBy_get (he.op.trans hop) k) (heldBy_get hop k)
  rcases he.keys with ⟨hsame, hkeys⟩ | ⟨hsearch, hplaced, heffect⟩
  · refine h.permuted (fun _ => .refl _) (fun k x => ?_) he.begun hinsert
    cases x with
    | none => exact hkeys k
    | some u =>
        by_cases hu : u = t
        · subst hu
          exact hkept hsame k
        · exact hothers k u hu
  · -- one pair changes its place
    have hswap :
        ∀ key, (∀ k, s'.Holds k none ↔ if k = key then s.Holds k (some t) else s.Holds k none) →
        (∀ k, s'.Holds k (some t) ↔ if k = key then s.Holds k none else s.Holds k (some t)) →
          Accounts s' S := by
      intro key hleaf hthread
      refine h.permuted (fun k => if k = key then Equiv.swap none (some t) else .refl _)
        (fun k x => ?_) he.begun
        hinsert
      by_cases hk : k = key
      · rw [if_pos hk]
        cases x with
        | none => rw [Equiv.swap_apply_left, hleaf, if_pos hk]
        | some u =>
            by_cases hu : u = t
            · rw [hu, Equiv.swap_apply_right, hthread, if_pos hk]
            · rw [Equiv.swap_apply_of_ne_of_ne (by simp) (by simpa using hu), hothers k u hu]
      · rw [if_neg hk]
        cases x with
        | none => rw [Equiv.refl_apply, hleaf, if_neg hk]
        | some u =>
            by_cases hu : u = t
            · rw [hu, Equiv.refl_apply, hthread, if_neg hk]
            · exact hothers k u hu
    cases hop : (s.threads t).op with
    | insert columns tid =>
        rw [hop] at heffect
        have hbefore : ∀ k, s.Holds k (some t) ↔ k = buildKey columns tid := fun k =>
          (heldBy_insert hop k).trans (by simp [hsearch])
        have hafter : ∀ k, ¬ s'.Holds k (some t) := fun k hk => by
          have hk := (heldBy_insert (he.op.trans hop) k).mp hk
          simp [hplaced] at hk
        have hfresh := (h.callOk t columns tid hop hsearch).2
        refine hswap (buildKey columns tid) (fun k => ?_) fun k => ?_
        · rw [show s'.Holds k none ↔ _ from heffect k, hbefore]
          split <;> rename_i hk <;> simp [hk, Holds]
        · split <;> rename_i hk
          · exact iff_of_false (hafter k) (hk ▸ hfresh)
          · exact iff_of_false (hafter k) fun hhold => hk ((hbefore k).mp hhold)
    | delete columns tid =>
        rw [hop] at heffect
        have hafter : ∀ k, s'.Holds k (some t) ↔ k = buildKey columns tid := fun k =>
          (heldBy_delete (he.op.trans hop) k).trans (by simp [hplaced, hne'])
        have hbefore : ∀ k, ¬ s.Holds k (some t) := fun k hk => by
          have hk := (heldBy_delete hop k).mp hk
          simp [hsearch] at hk
        have hfound := hasKey_of_deleted hop hok hrun hsearch hplaced
        refine hswap (buildKey columns tid) (fun k => ?_) fun k => ?_
        · rw [show s'.Holds k none ↔ _ from heffect k]
          split <;> rename_i hk
          · exact iff_of_false (fun hhas => hhas.2 hk) (hbefore k)
          · exact and_iff_left hk
        · rw [hafter]
          split <;> rename_i hk
          · exact iff_of_true hk (hk ▸ hfound)
          · exact iff_of_false hk (hbefore k)
    | get columns =>
        rw [hop] at heffect
        exact heffect.elim

end Accounts

/-- Inserts and deletes by any number of threads, as long as second descents find their root. What
the growth of the tree keeps holds too. -/
theorem sound_updates_grows {s : BTreeIndex} {S : Key → Prop}
    {P : LinkTree Key → (Nat → Key) → Prop} (hinit : P init.tree fun _ => [])
    (hgrows : ∀ {tr tr' low low'}, LinkTree.Grows tr tr' low low' → P tr low → P tr' low')
    (hs : btreeSystem.ReachableBy (UpdatesApart S) s) :
    ∃ low, Sound s low S ∧ Accounts s S ∧ P s.tree low := by
  refine hs.invariant (P := fun s => ∃ low, Sound s low S ∧ Accounts s S ∧ P s.tree low) ?_ ?_
  · rintro s₀ rfl
    exact ⟨_, sound_init, accounts_init, hinit⟩
  · rintro s a s' ⟨low, hsound, hacc, hp⟩ hc hst
    cases a with
    | invoke t op => exact ⟨low, hsound.invoke hst, hacc.invoke hc hst,
        (invoked_of_step hst).tree ▸ hp⟩
    | run t =>
        obtain ⟨low', he, hsound'⟩ := hsound.run (hacc.callOk t) hc hst
        exact ⟨low', hsound', hacc.run (hsound.pcOk t) he hst, hgrows he.grows hp⟩
    | ret t => exact ⟨low, hsound.ret hst, hacc.ret hst, (returned_of_step hst).tree ▸ hp⟩

theorem sound_updates {s : BTreeIndex} {S : Key → Prop}
    (hs : btreeSystem.ReachableBy (UpdatesApart S) s) :
    ∃ low, Sound s low S ∧ Accounts s S := by
  obtain ⟨low, hsound, hacc, -⟩ :=
    sound_updates_grows (P := fun _ _ => True) trivial (fun _ _ => trivial) hs
  exact ⟨low, hsound, hacc⟩

end BTreeIndex

end Db7
