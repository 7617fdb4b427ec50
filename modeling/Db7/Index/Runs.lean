import Db7.Index.Lookup

/-!
# Runs of the index

`Sound`: the pages have their shape and every thread may rely on what it knows.
A run step keeps it as long as an insert brings a key that is not there and a
second descent finds its root (`Sound.run`); calls and returns always do.

Over it `Ledger` relates the keys in the leaves to the inserts that were called
(`begun`) and that returned (`present`), for runs of inserts and lookups by any
number of threads.
-/

namespace Db7

open Lib Lib.BLink Function KeyNormEncoder
open BtreeVarlenLayoutLeaf (KeyOf)

namespace IndexOp

/-- The keys begun once the call has started. -/
def begunAtInvoke (begun : List Key) : IndexOp → List Key
  | insert columns tid => buildKey columns tid :: begun
  | delete .. | get _ => begun

/-- The keys begun once the call has returned. -/
def begunAtReturn (begun : List Key) : IndexOp → List Key
  | delete columns tid => begun.erase (buildKey columns tid)
  | insert .. | get _ => begun

/-- The keys present once the call has returned. -/
def presentAtReturn (present : List Key) : IndexOp → List Key
  | insert columns tid => buildKey columns tid :: present
  | delete columns tid => present.erase (buildKey columns tid)
  | get _ => present

end IndexOp

namespace BTreeIndex

/-- All calls have returned. -/
def Idle (s : BTreeIndex) : Prop := ∀ t, (s.threads t).pc = .idle

/-- The pages and what the threads rely on. -/
structure Sound (s : BTreeIndex) (low : Nat → Key) (S : Key → Prop) : Prop where
  shape : Shape s low S
  pcOk : ∀ t, PcOk s.tree low S (s.threads t)

section Sound

variable {s s' : BTreeIndex} {low low' : Nat → Key} {S : Key → Prop} {t : Nat} {op : IndexOp}

theorem sound_init : Sound init (fun _ => []) S := ⟨shape_init, fun _ => trivial⟩

theorem Sound.of_effect (h : Sound s low S) (he : Effect s s' low low' S t) : Sound s' low' S := by
  refine ⟨he.shape, fun u => ?_⟩
  by_cases hu : u = t
  · rw [hu]
    exact he.pcOk
  · rw [he.others u hu]
    exact (h.pcOk u).grows he.grows

/-- A step of a thread. -/
theorem Sound.run (h : Sound s low S) (hcall : CallOk s S t) (hc : s.RootAbove (.run t))
    (hs : s.step (.run t) = some s') : ∃ low', Effect s s' low low' S t ∧ Sound s' low' S := by
  simp only [step] at hs
  split at hs
  · rename_i s₁ hrun
    obtain rfl := Option.some.inj hs
    obtain ⟨low', he⟩ := effect_run h.shape (h.pcOk t) hcall hc hrun
    exact ⟨low', he, h.of_effect he⟩
  · exact absurd hs (by simp)

/-- What a call changes. -/
structure Invoked (s s' : BTreeIndex) (t : Nat) (op : IndexOp) : Prop where
  idle : (s.threads t).pc = .idle
  thread : s'.threads t = ⟨op, [], .loadRoot, s.present⟩
  others : ∀ u, u ≠ t → s'.threads u = s.threads u
  pages : s'.pages = s.pages
  rootId : s'.rootId = s.rootId
  nextPid : s'.nextPid = s.nextPid
  present : s'.present = s.present
  begun : s'.begun = op.begunAtInvoke s.begun

theorem invoked_of_step (hs : s.step (.invoke t op) = some s') : Invoked s s' t op := by
  simp only [step, Option.ite_none_right_eq_some, Option.some.injEq] at hs
  obtain ⟨hidle, rfl⟩ := hs
  exact ⟨hidle, by simp, fun u hu => by simp [hu], rfl, rfl, rfl, rfl, by cases op <;> rfl⟩

theorem Invoked.tree (h : Invoked s s' t op) : s'.tree = s.tree := tree_congr h.pages h.rootId

theorem Sound.invoke (h : Sound s low S) (hs : s.step (.invoke t op) = some s') :
    Sound s' low S := by
  have hi := invoked_of_step hs
  refine ⟨h.shape.congr hi.pages hi.rootId hi.nextPid.ge (hi.nextPid ▸ h.shape.limit), fun u => ?_⟩
  rw [hi.tree]
  by_cases hu : u = t
  · rw [hu, hi.thread]
    rfl
  · rw [hi.others u hu]
    exact h.pcOk u

/-- What a return changes. -/
structure Returned (s s' : BTreeIndex) (t : Nat) : Prop where
  done : ∃ results, (s.threads t).pc = .done results
  thread : s'.threads t = { s.threads t with pc := .idle }
  others : ∀ u, u ≠ t → s'.threads u = s.threads u
  pages : s'.pages = s.pages
  rootId : s'.rootId = s.rootId
  nextPid : s'.nextPid = s.nextPid
  present : s'.present = (s.threads t).op.presentAtReturn s.present
  begun : s'.begun = (s.threads t).op.begunAtReturn s.begun

theorem returned_of_step (hs : s.step (.ret t) = some s') : Returned s s' t := by
  simp only [step] at hs
  split at hs
  · rename_i results hdone
    obtain rfl := Option.some.inj hs
    unfold finish
    cases hop : (s.threads t).op <;>
      exact ⟨⟨results, hdone⟩, by simp [goto], fun u hu => by simp [goto, hu], rfl, rfl, rfl,
        by rw [hop]; rfl, by rw [hop]; rfl⟩
  · exact absurd hs (by simp)

theorem Returned.tree (h : Returned s s' t) : s'.tree = s.tree := tree_congr h.pages h.rootId

theorem Sound.ret (h : Sound s low S) (hs : s.step (.ret t) = some s') : Sound s' low S := by
  have hr := returned_of_step hs
  refine ⟨h.shape.congr hr.pages hr.rootId hr.nextPid.ge (hr.nextPid ▸ h.shape.limit), fun u => ?_⟩
  rw [hr.tree]
  by_cases hu : u = t
  · rw [hu, hr.thread]
    trivial
  · rw [hr.others u hu]
    exact h.pcOk u

end Sound

/-! ## Inserts by any number of threads -/

/-- A pair that the index is made for: columns in `S`, a 64-bit id, and a key
that fits in a row. -/
def Admissible (S : Key → Prop) (columns : Key) (tid : Nat) : Prop :=
  S columns ∧ tid < 2 ^ 64 ∧ columns.length + 8 < db7MaxRowSize

instance (S : Key → Prop) [DecidablePred S] (columns : Key) (tid : Nat) :
    Decidable (Admissible S columns tid) :=
  inferInstanceAs (Decidable (_ ∧ _ ∧ _))

theorem Admissible.keyOf {S : Key → Prop} {columns : Key} {tid : Nat}
    (h : Admissible S columns tid) :
    KeyOf S (buildKey columns tid) :=
  ⟨columns, tid, h.1, h.2.1, h.2.2, rfl⟩

/-- The calls are inserts, each of a new pair, and lookups. -/
def InsertsOnce (S : Key → Prop) (s : BTreeIndex) : BtreeAction → Prop
  | .invoke _ (.insert columns tid) => Admissible S columns tid ∧ buildKey columns tid ∉ s.begun
  | .invoke _ (.delete ..) => False
  | _ => True

instance (S : Key → Prop) [DecidablePred S] (s : BTreeIndex) (a : BtreeAction) :
    Decidable (InsertsOnce S s a) := by
  unfold InsertsOnce
  split <;> infer_instance

/-- The keys in the leaves, and the inserts that were called and that returned. -/
structure Ledger (s : BTreeIndex) (S : Key → Prop) : Prop where
  begun : ∀ k, s.tree.HasKey k → k ∈ s.begun
  present : ∀ k ∈ s.present, s.tree.HasKey k
  called : ∀ t columns tid, (s.threads t).op = .insert columns tid → (s.threads t).pc ≠ .idle →
    KeyOf S (buildKey columns tid) ∧ buildKey columns tid ∈ s.begun
  searching : ∀ t columns tid, (s.threads t).op = .insert columns tid →
    (s.threads t).pc.searching = true → ¬ s.tree.HasKey (buildKey columns tid)
  placed : ∀ t columns tid, (s.threads t).op = .insert columns tid → (s.threads t).pc ≠ .idle →
    (s.threads t).pc.searching = false → s.tree.HasKey (buildKey columns tid)
  distinct : ∀ t u columns tid columns' tid', t ≠ u → (s.threads t).op = .insert columns tid →
    (s.threads u).op = .insert columns' tid' → (s.threads t).pc.searching = true →
    (s.threads u).pc ≠ .idle → buildKey columns tid ≠ buildKey columns' tid'
  noDelete : ∀ t columns tid, (s.threads t).op = .delete columns tid → (s.threads t).pc = .idle

section Ledger

variable {s s' : BTreeIndex} {low low' : Nat → Key} {S : Key → Prop} {t : Nat} {op : IndexOp}

theorem ledger_init : Ledger init S where
  begun := by
    rintro k ⟨p, n, hp, -, e, he, rfl⟩
    obtain ⟨pg, hpg, rfl⟩ := pages_of_tree hp
    by_cases hp1 : p = 1
    · subst hp1
      simp only [init, update_self, Option.some.injEq] at hpg
      subst hpg
      exact absurd he (by simp [BtreePage.node, Layout.entries, BtreePage.initHeader])
    · simp [init, hp1] at hpg
  present := by simp [init]
  called := by simp [init]
  searching := by simp [init]
  placed := by simp [init]
  distinct := by simp [init]
  noDelete := by simp [init]

theorem Ledger.callOk (h : Ledger s S) (t : Nat) : CallOk s S t := by
  intro columns tid hop hsearch
  have hne : (s.threads t).pc ≠ .idle := fun hidle => by simp [hidle, BtreePc.searching] at hsearch
  exact ⟨(h.called t columns tid hop hne).1, h.searching t columns tid hop hsearch⟩

theorem Ledger.invoke (h : Ledger s S) (hc : InsertsOnce S s (.invoke t op))
    (hs : s.step (.invoke t op) = some s') : Ledger s' S := by
  have hi := invoked_of_step hs
  have hbegun : ∀ k, k ∈ s.begun → k ∈ s'.begun := by
    intro k hk
    rw [hi.begun]
    cases op with
    | insert columns tid => exact List.mem_cons_of_mem _ hk
    | delete columns tid => exact hk
    | get columns => exact hk
  have hfresh : ∀ columns tid, op = .insert columns tid → KeyOf S (buildKey columns tid) ∧
      buildKey columns tid ∉ s.begun ∧ buildKey columns tid ∈ s'.begun := by
    rintro columns tid rfl
    exact ⟨hc.1.keyOf, hc.2, by rw [hi.begun]; exact List.mem_cons_self⟩
  refine ⟨fun k hk => ?_, fun k hk => ?_, fun u columns tid hop hpc => ?_,
    fun u columns tid hop hpc => ?_, fun u columns tid hop hpc hsearch => ?_,
    fun u v columns tid columns' tid' huv hop hop' hpc hpc' => ?_, fun u columns tid hop => ?_⟩
  · rw [hi.tree] at hk
    exact hbegun k (h.begun k hk)
  · rw [hi.present] at hk
    rw [hi.tree]
    exact h.present k hk
  · by_cases hu : u = t
    · subst hu
      rw [hi.thread] at hop
      obtain ⟨hkey, -, hin⟩ := hfresh columns tid hop
      exact ⟨hkey, hin⟩
    · rw [hi.others u hu] at hop hpc
      obtain ⟨hkey, hin⟩ := h.called u columns tid hop hpc
      exact ⟨hkey, hbegun _ hin⟩
  · rw [hi.tree]
    by_cases hu : u = t
    · subst hu
      rw [hi.thread] at hop
      obtain ⟨-, hnew, -⟩ := hfresh columns tid hop
      exact fun hk => hnew (h.begun _ hk)
    · rw [hi.others u hu] at hop hpc
      exact h.searching u columns tid hop hpc
  · by_cases hu : u = t
    · subst hu
      rw [hi.thread] at hsearch
      simp [BtreePc.searching] at hsearch
    · rw [hi.others u hu] at hop hpc hsearch
      rw [hi.tree]
      exact h.placed u columns tid hop hpc hsearch
  · -- the new key is not one of those that were begun
    by_cases hu : u = t
    · subst hu
      rw [hi.thread] at hop
      rw [hi.others v huv.symm] at hop' hpc'
      obtain ⟨-, hnew, -⟩ := hfresh columns tid hop
      exact fun heq => hnew (heq ▸ (h.called v columns' tid' hop' hpc').2)
    · rw [hi.others u hu] at hop hpc
      have hne : (s.threads u).pc ≠ .idle := fun hidle => by simp [hidle, BtreePc.searching] at hpc
      by_cases hv : v = t
      · subst hv
        rw [hi.thread] at hop'
        obtain ⟨-, hnew, -⟩ := hfresh columns' tid' hop'
        exact fun heq => hnew (heq ▸ (h.called u columns tid hop hne).2)
      · rw [hi.others v hv] at hop' hpc'
        exact h.distinct u v columns tid columns' tid' huv hop hop' hpc hpc'
  · by_cases hu : u = t
    · subst hu
      rw [hi.thread] at hop
      subst hop
      exact hc.elim
    · rw [hi.others u hu] at hop ⊢
      exact h.noDelete u columns tid hop

theorem Ledger.ret (h : Ledger s S) (hs : s.step (.ret t) = some s') : Ledger s' S := by
  have hr := returned_of_step hs
  obtain ⟨results, hdone⟩ := hr.done
  have hne : (s.threads t).pc ≠ .idle := by rw [hdone]; simp
  have hplace : (s.threads t).pc.searching = false := by rw [hdone]; rfl
  have hidle : (s'.threads t).pc = .idle := by rw [hr.thread]
  have hbegun : s'.begun = s.begun := by
    rw [hr.begun]
    cases hop : (s.threads t).op with
    | delete columns tid => exact absurd (h.noDelete t columns tid hop) hne
    | insert columns tid => rfl
    | get columns => rfl
  refine ⟨fun k hk => ?_, fun k hk => ?_, fun u columns tid hop hpc => ?_,
    fun u columns tid hop hpc => ?_, fun u columns tid hop hpc hsearch => ?_,
    fun u v columns tid columns' tid' huv hop hop' hpc hpc' => ?_, fun u columns tid hop => ?_⟩
  · rw [hr.tree] at hk
    rw [hbegun]
    exact h.begun k hk
  · rw [hr.tree]
    rw [hr.present] at hk
    cases hop : (s.threads t).op with
    | insert columns tid =>
        rw [hop] at hk
        rcases List.mem_cons.mp hk with rfl | hk
        · exact h.placed t columns tid hop hne hplace
        · exact h.present k hk
    | delete columns tid => exact absurd (h.noDelete t columns tid hop) hne
    | get columns =>
        rw [hop] at hk
        exact h.present k hk
  · by_cases hu : u = t
    · subst hu
      exact absurd hidle hpc
    · rw [hr.others u hu] at hop hpc
      rw [hbegun]
      exact h.called u columns tid hop hpc
  · by_cases hu : u = t
    · subst hu
      simp [hidle, BtreePc.searching] at hpc
    · rw [hr.others u hu] at hop hpc
      rw [hr.tree]
      exact h.searching u columns tid hop hpc
  · by_cases hu : u = t
    · subst hu
      exact absurd hidle hpc
    · rw [hr.others u hu] at hop hpc hsearch
      rw [hr.tree]
      exact h.placed u columns tid hop hpc hsearch
  · by_cases hu : u = t
    · subst hu
      simp [hidle, BtreePc.searching] at hpc
    · by_cases hv : v = t
      · subst hv
        exact absurd hidle hpc'
      · rw [hr.others u hu] at hop hpc
        rw [hr.others v hv] at hop' hpc'
        exact h.distinct u v columns tid columns' tid' huv hop hop' hpc hpc'
  · by_cases hu : u = t
    · subst hu
      exact hidle
    · rw [hr.others u hu] at hop ⊢
      exact h.noDelete u columns tid hop

theorem running_of_step (hs : s.step (.run t) = some s') : (s.threads t).pc ≠ .idle := by
  intro hidle
  simp [step, runThread, hidle] at hs

theorem Ledger.run (h : Ledger s S) (he : Effect s s' low low' S t)
    (hs : s.step (.run t) = some s') : Ledger s' S := by
  have hne := running_of_step hs
  -- a key that came in is that of the thread's insert
  have hkeys : ∀ k, s'.tree.HasKey k → s.tree.HasKey k ∨
      ∃ columns tid, (s.threads t).op = .insert columns tid ∧
        (s.threads t).pc.searching = true ∧ k = buildKey columns tid := by
    intro k hk
    rcases he.keys with ⟨-, hsame⟩ | ⟨hsearch, -, hplaced⟩
    · exact .inl ((hsame k).mp hk)
    · cases hop : (s.threads t).op with
      | insert columns tid =>
          rw [hop] at hplaced
          exact ((hplaced k).mp hk).imp_right fun heq => ⟨columns, tid, rfl, hsearch, heq⟩
      | delete columns tid => exact absurd (h.noDelete t columns tid hop) hne
      | get columns =>
          rw [hop] at hplaced
          exact hplaced.elim
  have hkept : ∀ k, s.tree.HasKey k → s'.tree.HasKey k := by
    intro k hk
    rcases he.keys with ⟨-, hsame⟩ | ⟨hsearch, -, hplaced⟩
    · exact (hsame k).mpr hk
    · cases hop : (s.threads t).op with
      | insert columns tid =>
          rw [hop] at hplaced
          exact (hplaced k).mpr (.inl hk)
      | delete columns tid => exact absurd (h.noDelete t columns tid hop) hne
      | get columns =>
          rw [hop] at hplaced
          exact hplaced.elim
  -- an insert that still searches was searching before
  have hsearching : ∀ columns tid, (s.threads t).op = .insert columns tid →
      (s'.threads t).pc.searching = true → (s.threads t).pc.searching = true ∧
        ∀ k, s'.tree.HasKey k ↔ s.tree.HasKey k := by
    intro columns tid hop hpc
    rcases he.keys with ⟨hsearch | ⟨p, hget⟩, hsame⟩ | ⟨-, hpc', -⟩
    · exact ⟨hsearch ▸ hpc, hsame⟩
    · simp [hop] at hget
    · simp [hpc'] at hpc
  refine ⟨fun k hk => ?_, fun k hk => ?_, fun u columns tid hop hpc => ?_,
    fun u columns tid hop hpc => ?_, fun u columns tid hop hpc hsearch => ?_,
    fun u v columns tid columns' tid' huv hop hop' hpc hpc' => ?_, fun u columns tid hop => ?_⟩
  · rw [he.begun]
    rcases hkeys k hk with hk | ⟨columns, tid, hop, -, rfl⟩
    · exact h.begun k hk
    · exact (h.called t columns tid hop hne).2
  · rw [he.present] at hk
    exact hkept k (h.present k hk)
  · rw [he.begun]
    by_cases hu : u = t
    · subst hu
      rw [he.op] at hop
      exact h.called u columns tid hop hne
    · rw [he.others u hu] at hop hpc
      exact h.called u columns tid hop hpc
  · intro hk
    by_cases hu : u = t
    · subst hu
      rw [he.op] at hop
      obtain ⟨hsearch, hsame⟩ := hsearching columns tid hop hpc
      exact h.searching u columns tid hop hsearch ((hsame _).mp hk)
    · rw [he.others u hu] at hop hpc
      rcases hkeys _ hk with hk | ⟨columns', tid', hop', -, heq⟩
      · exact h.searching u columns tid hop hpc hk
      · exact h.distinct u t columns tid columns' tid' hu hop hop' hpc hne heq
  · by_cases hu : u = t
    · subst hu
      rw [he.op] at hop
      rcases he.keys with ⟨hsame | ⟨p, hget⟩, -⟩ | ⟨-, -, hplaced⟩
      · exact hkept _ (h.placed u columns tid hop hne (hsame ▸ hsearch))
      · simp [hop] at hget
      · rw [hop] at hplaced
        exact (hplaced _).mpr (.inr rfl)
    · rw [he.others u hu] at hop hpc hsearch
      exact hkept _ (h.placed u columns tid hop hpc hsearch)
  · by_cases hu : u = t
    · subst hu
      rw [he.op] at hop
      rw [he.others v huv.symm] at hop' hpc'
      obtain ⟨hsearch, -⟩ := hsearching columns tid hop hpc
      exact h.distinct u v columns tid columns' tid' huv hop hop' hsearch hpc'
    · rw [he.others u hu] at hop hpc
      by_cases hv : v = t
      · subst hv
        rw [he.op] at hop'
        exact h.distinct u v columns tid columns' tid' huv hop hop' hpc hne
      · rw [he.others v hv] at hop' hpc'
        exact h.distinct u v columns tid columns' tid' huv hop hop' hpc hpc'
  · by_cases hu : u = t
    · subst hu
      rw [he.op] at hop
      exact absurd (h.noDelete u columns tid hop) hne
    · rw [he.others u hu] at hop ⊢
      exact h.noDelete u columns tid hop

end Ledger

/-- Inserts by any number of threads, as long as a second descent finds its
root. -/
theorem sound_ledger {s : BTreeIndex} {S : Key → Prop}
    (hs : btreeSystem.ReachableBy (fun s a => InsertsOnce S s a ∧ s.RootAbove a) s) :
    ∃ low, Sound s low S ∧ Ledger s S := by
  refine hs.invariant (P := fun s => ∃ low, Sound s low S ∧ Ledger s S) ?_ ?_
  · rintro s₀ rfl
    exact ⟨_, sound_init, ledger_init⟩
  · rintro s a s' ⟨low, hsound, hledger⟩ ⟨hc, hroot⟩ hst
    cases a with
    | invoke t op => exact ⟨low, hsound.invoke hst, hledger.invoke hc hst⟩
    | run t =>
        obtain ⟨low', he, hsound'⟩ := hsound.run (hledger.callOk t) hroot hst
        exact ⟨low', hsound', hledger.run he hst⟩
    | ret t => exact ⟨low, hsound.ret hst, hledger.ret hst⟩

/-! ## Schedules -/

/-- Columns of fixed-width types: any two keys have the same length. -/
def FixedWidth (n : Nat) (k : Key) : Prop := k.length = n

instance (n : Nat) : DecidablePred (FixedWidth n) :=
  fun k => inferInstanceAs (Decidable (k.length = n))

theorem prefixFree_fixedWidth (n : Nat) : PrefixFree (FixedWidth n) := by
  intro p q hp hq hpq
  exact hpq.eq_of_length (hp.trans hq.symm)

/-- 101 `BIGINT` columns. -/
def Wide (k : Key) : Prop := k.length = 808

instance : DecidablePred Wide := fun k => inferInstanceAs (Decidable (k.length = 808))

theorem prefixFree_wide : PrefixFree Wide := prefixFree_fixedWidth 808

/-- The columns whose first byte is `i`; a leaf holds nine of them. -/
def wide (i : Nat) : Key := byte i :: List.replicate 807 (byte 0)

/-- 22 `VARCHAR` columns: the first starts with the byte `i`, the next `n` have
36 bytes when they are normalised, the others are empty. -/
def texts (i n : Nat) : Key :=
  (byte i :: List.replicate 18 (byte 0x62) ++ [byte 0]) ++
    (List.replicate n (List.replicate 36 (byte 0x62) ++ [byte 0])).flatten ++
    List.replicate (21 - n) (byte 0)

/-- 22 `VARCHAR` columns, the text `"b"` and empty texts. -/
def text : Key := byte 0x62 :: List.replicate 22 (byte 0)

/-- 22 `VARCHAR` columns, of texts without a NUL. -/
def Texts (k : Key) : Prop := k.count (byte 0) = 22 ∧ k.getLast? = some (byte 0)

instance : DecidablePred Texts := fun k =>
  inferInstanceAs (Decidable (k.count (byte 0) = 22 ∧ k.getLast? = some (byte 0)))

theorem prefixFree_texts : PrefixFree Texts := by
  rintro p q ⟨hp, -⟩ ⟨hq, hlast⟩ ⟨r, rfl⟩
  rw [List.count_append, hp] at hq
  have hnone : byte 0 ∉ r := List.count_eq_zero.mp (by omega)
  cases r using List.reverseRecOn with
  | nil => exact (List.append_nil p).symm
  | append_singleton r b =>
      rw [← List.append_assoc, List.getLast?_concat] at hlast
      rw [Option.some.inj hlast] at hnone
      exact absurd (List.mem_append_right _ List.mem_cons_self) hnone

/-- Thread `t` inserts a pair in `n` steps. -/
def insertCall (t : Nat) (columns : Key) (tid n : Nat) : List BtreeAction :=
  .invoke t (.insert columns tid) :: List.replicate n (.run t) ++ [.ret t]

/-- Thread `t` deletes a pair in `n` steps. -/
def deleteCall (t : Nat) (columns : Key) (tid n : Nat) : List BtreeAction :=
  .invoke t (.delete columns tid) :: List.replicate n (.run t) ++ [.ret t]

/-- A leaf with ten long rows and the ids 10, 20 and 30 of `text`. -/
def oneLeaf : List BtreeAction :=
  ([(1, 21), (2, 21), (3, 21), (4, 21), (5, 10), (0xc1, 21), (0xc2, 21), (0xc3, 21), (0xc4, 21),
      (0xc5, 10)].flatMap fun (i, n) => insertCall 0 (texts i n) 1 3) ++
    [10, 20, 30].flatMap fun tid => insertCall 0 text tid 3

/-- Two leaves; the ids 10 and 20 of `text` end the left one, 30 starts the
right one. -/
def twoLeaves : List BtreeAction := oneLeaf ++ insertCall 0 (texts 0xc6 20) 1 4

/-- Thread `t` looks up columns and makes `n` steps. -/
def getCall (t : Nat) (columns : Key) (n : Nat) : List BtreeAction :=
  .invoke t (.get columns) :: List.replicate n (.run t)

/-- Thread `t` inserts `wide i` and makes `n` steps. -/
def insertWide (t i n : Nat) : List BtreeAction :=
  .invoke t (.insert (wide i) 1) :: List.replicate n (.run t)

end BTreeIndex

end Db7
