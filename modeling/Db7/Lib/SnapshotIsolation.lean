import Mathlib.Data.Set.Insert
import Mathlib.Logic.Function.Basic
import Mathlib.Logic.Relation

/-!
# Snapshot isolation

A store of keys, each part of an object. A transaction reads the state that was committed
when it began, with its own writes on top, and a commit puts the writes of the transaction
on top of the committed state at once. A write claims the object, which nobody else may
have claimed, and which nobody may have claimed and committed since the transaction began.

* **invariant** (`Inv`): two transactions under way claim different objects, and what a
  transaction has not lost to others is as in its snapshot;
* **no lost update** (`Inv.committed_eq`): the values that a commit replaces are those of
  the snapshot;
* **stable reads** (`read_run`): what a transaction reads changes by its own writes only.
-/

namespace Lib.Snapshot

open Function Relation

variable {T K V C : Type}

/-- A transaction under way: the state that it began with, its writes, the objects that it
has claimed, and those that others have claimed and committed since it began. -/
@[ext] structure View (K V C : Type) where
  snapshot : K → Option V
  writes : K → Option V
  claimed : Set C
  stale : Set C

/-- What the transaction reads. -/
def View.read (v : View K V C) (k : K) : Option V := (v.writes k).or (v.snapshot k)

@[ext] structure Store (T K V C : Type) where
  committed : K → Option V
  views : T → Option (View K V C)

inductive Act (T K V C : Type)
  | begin (t : T)
  | write (t : T) (c : C) (values : K → Option V)
  | commit (t : T)

namespace View

/-- A transaction that begins. -/
def start (committed : K → Option V) : View K V C := ⟨committed, fun _ => none, ∅, ∅⟩

/-- A write to object `c`. -/
def write (v : View K V C) (c : C) (values : K → Option V) : View K V C :=
  { v with writes := fun k => (values k).or (v.writes k), claimed := insert c v.claimed }

/-- Another transaction commits what it has claimed. -/
def lose (v : View K V C) (claimed : Set C) : View K V C := { v with stale := v.stale ∪ claimed }

end View

/-- The steps of the store; `obj` is the object that a key is part of. -/
inductive Step [DecidableEq T] (obj : K → C) (s : Store T K V C) :
    Act T K V C → Store T K V C → Prop
  | begin {t} : s.views t = none →
      Step obj s (.begin t) { s with views := update s.views t (some (.start s.committed)) }
  | write {t c values v} : s.views t = some v → c ∉ v.stale →
      (∀ u w, u ≠ t → s.views u = some w → c ∉ w.claimed) → (∀ k, values k ≠ none → obj k = c) →
      Step obj s (.write t c values) { s with views := update s.views t (some (v.write c values)) }
  | commit {t v} : s.views t = some v →
      Step obj s (.commit t)
        ⟨fun k => (v.writes k).or (s.committed k),
          fun u => if u = t then none else (s.views u).map fun w => w.lose v.claimed⟩

variable [DecidableEq T] {obj : K → C} {s s' : Store T K V C} {a : Act T K V C} {t u : T} {k : K}
  {v w : View K V C}

/-- What the transactions under way have to do with each other and the committed state. -/
structure Inv (obj : K → C) (s : Store T K V C) : Prop where
  claims : ∀ t v, s.views t = some v → ∀ k, v.writes k ≠ none → obj k ∈ v.claimed
  apart : ∀ t u v w, t ≠ u → s.views t = some v → s.views u = some w →
    ∀ c ∈ v.claimed, c ∉ w.claimed
  kept : ∀ t v, s.views t = some v → ∀ c ∈ v.claimed, c ∉ v.stale
  current : ∀ t v k, s.views t = some v → obj k ∉ v.stale → v.snapshot k = s.committed k

omit [DecidableEq T] in
theorem inv_init (h : ∀ t, s.views t = none) : Inv obj s := by
  refine ⟨fun t v hv => ?_, fun t u v w _ hv => ?_, fun t v hv => ?_, fun t v k hv => ?_⟩ <;>
    exact absurd ((h t).symm.trans hv) (by simp)

theorem inv_step (hi : Inv obj s) (h : Step obj s a s') : Inv obj s' := by
  cases h with
  | @begin t hnone =>
      have hcases : ∀ u w, (update s.views t (some (View.start s.committed))) u = some w →
          u = t ∧ w = .start s.committed ∨ s.views u = some w := by
        intro u w hw
        by_cases hu : u = t
        · subst hu
          exact .inl ⟨rfl, by simpa using hw.symm⟩
        · exact .inr (by simpa [hu] using hw)
      refine ⟨fun u w hw k hk => ?_, fun u u' w w' hne hw hw' => ?_, fun u w hw => ?_,
        fun u w k hw hk => ?_⟩
      · rcases hcases u w hw with ⟨-, rfl⟩ | hold
        · simp [View.start] at hk
        · exact hi.claims u w hold k hk
      · rcases hcases u w hw with ⟨-, rfl⟩ | hold
        · exact fun c hc => absurd hc (Set.notMem_empty c)
        · rcases hcases u' w' hw' with ⟨-, rfl⟩ | hold'
          · exact fun c _ => Set.notMem_empty c
          · exact hi.apart u u' w w' hne hold hold'
      · rcases hcases u w hw with ⟨-, rfl⟩ | hold
        · exact fun c _ => Set.notMem_empty c
        · exact hi.kept u w hold
      · rcases hcases u w hw with ⟨-, rfl⟩ | hold
        · rfl
        · exact hi.current u w k hold hk
  | @write t c values v hv hstale hfree hobj =>
      have hcases : ∀ u w, (update s.views t (some (v.write c values))) u = some w →
          u = t ∧ w = v.write c values ∨ u ≠ t ∧ s.views u = some w := by
        intro u w hw
        by_cases hu : u = t
        · subst hu
          exact .inl ⟨rfl, by simpa using hw.symm⟩
        · exact .inr ⟨hu, by simpa [hu] using hw⟩
      -- nobody else has claimed what `t` has claimed now
      have happart : ∀ u w, u ≠ t → s.views u = some w → ∀ x ∈ (v.write c values).claimed,
          x ∉ w.claimed := by
        intro u w hu hw
        exact Set.forall_insert_of_forall (hi.apart t u v w hu.symm hv hw) (hfree u w hu hw)
      refine ⟨fun u w hw k hk => ?_, fun u u' w w' hne hw hw' => ?_, fun u w hw => ?_,
        fun u w k hw hk => ?_⟩
      · rcases hcases u w hw with ⟨-, rfl⟩ | ⟨-, hold⟩
        · by_cases hvalue : values k = none
          · have hwrites : v.writes k ≠ none := by simpa [View.write, hvalue] using hk
            exact Set.mem_insert_of_mem _ (hi.claims t v hv k hwrites)
          · exact hobj k hvalue ▸ Set.mem_insert _ _
        · exact hi.claims u w hold k hk
      · rcases hcases u w hw with ⟨rfl, rfl⟩ | ⟨hu, hold⟩
        · rcases hcases u' w' hw' with ⟨rfl, -⟩ | ⟨hu', hold'⟩
          · exact absurd rfl hne
          · exact happart u' w' hu' hold'
        · rcases hcases u' w' hw' with ⟨rfl, rfl⟩ | ⟨-, hold'⟩
          · exact fun x hx hx' => happart u w hu hold x hx' hx
          · exact hi.apart u u' w w' hne hold hold'
      · rcases hcases u w hw with ⟨-, rfl⟩ | ⟨-, hold⟩
        · exact Set.forall_insert_of_forall (hi.kept t v hv) hstale
        · exact hi.kept u w hold
      · rcases hcases u w hw with ⟨-, rfl⟩ | ⟨-, hold⟩
        · exact hi.current t v k hv hk
        · exact hi.current u w k hold hk
  | @commit t v hv =>
      have hcases :
          ∀ u w', (if u = t then none else (s.views u).map fun w => w.lose v.claimed) = some w' →
          u ≠ t ∧ ∃ w, s.views u = some w ∧ w' = w.lose v.claimed := by
        intro u w' hw
        by_cases hu : u = t
        · simp [hu] at hw
        · obtain ⟨w, hold, rfl⟩ := Option.map_eq_some_iff.mp (by simpa [hu] using hw)
          exact ⟨hu, w, hold, rfl⟩
      refine ⟨fun u w' hw k hk => ?_, fun u x w' y' hne hw hy => ?_, fun u w' hw => ?_,
        fun u w' k hw hk => ?_⟩
      · obtain ⟨-, w, hold, rfl⟩ := hcases u w' hw
        exact hi.claims u w hold k hk
      · obtain ⟨-, w, hold, rfl⟩ := hcases u w' hw
        obtain ⟨-, y, hold', rfl⟩ := hcases x y' hy
        exact hi.apart u x w y hne hold hold'
      · obtain ⟨hu, w, hold, rfl⟩ := hcases u w' hw
        exact fun c hc => not_or.mpr ⟨hi.kept u w hold c hc, hi.apart u t w v hu hold hv c hc⟩
      · obtain ⟨-, w, hold, rfl⟩ := hcases u w' hw
        obtain ⟨hstale, hclaimed⟩ := not_or.mp hk
        -- the key is in no object that `t` has written
        have hwrites : v.writes k = none := by
          by_contra hne
          exact hclaimed (hi.claims t v hv k hne)
        show w.snapshot k = (v.writes k).or (s.committed k)
        rw [hwrites, Option.none_or]
        exact hi.current u w k hold hstale

omit [DecidableEq T] in
/-- The values that a commit replaces are those of the snapshot. -/
theorem Inv.committed_eq (hi : Inv obj s) (hv : s.views t = some v) (hk : obj k ∈ v.claimed) :
    s.committed k = v.snapshot k :=
  (hi.current t v k hv (hi.kept t v hv (obj k) hk)).symm

/-- A transaction reads the same after a step that is not its own. -/
theorem Step.read (h : Step obj s a s') (hv : s.views t = some v) (hcommit : a ≠ .commit t)
    (hwrite : ∀ c values, a = .write t c values → values k = none) :
    ∃ v', s'.views t = some v' ∧ v'.read k = v.read k := by
  cases h with
  | @begin u hnone =>
      have hne : t ≠ u := by
        rintro rfl
        exact absurd (hnone.symm.trans hv) (by simp)
      exact ⟨v, by simp [hne, hv], rfl⟩
  | @write u c values w hw _ _ _ =>
      by_cases hu : t = u
      · subst hu
        obtain rfl := Option.some.inj (hw.symm.trans hv)
        exact ⟨_, update_self .., by simp [View.read, View.write, hwrite c values rfl]⟩
      · exact ⟨v, by simp [hu, hv], rfl⟩
  | @commit u w hw =>
      have hne : t ≠ u := by
        rintro rfl
        exact hcommit rfl
      exact ⟨v.lose w.claimed, by simp [hne, hv], rfl⟩

/-! ## Runs -/

/-- The states that are reached from one in which no transaction is under way. -/
def Reached (obj : K → C) (s : Store T K V C) : Prop :=
  ∃ s₀ : Store T K V C, (∀ t, s₀.views t = none) ∧
    ReflTransGen (fun s s' => ∃ a, Step obj s a s') s₀ s

theorem Reached.inv (h : Reached obj s) : Inv obj s := by
  obtain ⟨s₀, hinit, hrun⟩ := h
  induction hrun with
  | refl => exact inv_init hinit
  | tail _ hs ih => exact inv_step ih hs.choose_spec

theorem Reached.step (h : Reached obj s) (hs : Step obj s a s') : Reached obj s' := by
  obtain ⟨s₀, hinit, hrun⟩ := h
  exact ⟨s₀, hinit, hrun.tail ⟨a, hs⟩⟩

/-- A step at which `t` neither commits nor writes `k`. -/
def Leaves (obj : K → C) (t : T) (k : K) (s s' : Store T K V C) : Prop :=
  ∃ a, Step obj s a s' ∧ a ≠ .commit t ∧ ∀ c values, a = .write t c values → values k = none

/-- Between two reads the others may do what they like. -/
theorem read_run (h : ReflTransGen (Leaves obj t k) s s') (hv : s.views t = some v) :
    ∃ v', s'.views t = some v' ∧ v'.read k = v.read k := by
  induction h with
  | refl => exact ⟨v, hv, rfl⟩
  | tail _ hs ih =>
      obtain ⟨w, hw, heq⟩ := ih
      obtain ⟨a, hstep, hcommit, hwrite⟩ := hs
      obtain ⟨v', hv', heq'⟩ := hstep.read hw hcommit hwrite
      exact ⟨v', hv', heq'.trans heq⟩

end Lib.Snapshot
