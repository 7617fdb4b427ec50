import Mathlib.Logic.Function.Basic
import Mathlib.Data.List.Basic
import Mathlib.Data.Nat.Init
import Mathlib.Logic.Relation

/-!
# Labelled transition systems given by a partial step function

`step s a = none` says that the action `a` is not enabled in `s`. Runs carry a
condition on their steps (`Steps C`): a property proved of every run whose
steps all meet `C` is the invariant form used where a program keeps its
promise only on some runs. These facts compose:

* **invariants** (`Steps.invariant`): what holds at the start and is preserved
  by every step that meets the condition holds along the run;
* **concatenation** (`Steps.trans`), and weakening of the condition
  (`Steps.mono`);
* **simulation** (`Steps.simulates`): a step-by-step match with another system
  is one of whole runs;
* **determinism** (`Steps.eq_of_stuck`): runs that repeat one action end in the
  same state;
* **execution** (`TSys.Steps.of_exec`): the executable `exec` of a list of actions is
  a run, so a closed schedule can be evaluated.
-/

namespace Lib

/-- A labelled transition system with initial states `init`. -/
structure TSys (σ α : Type) where
  init : σ → Prop
  step : σ → α → Option σ

namespace TSys

variable {σ α : Type} (M : TSys σ α)

/-- Every step of the run meets `C`, evaluated in the state before the step. -/
inductive Steps (C : σ → α → Prop) : σ → σ → Prop
  | refl {s} : Steps C s s
  | tail {s t u a} : Steps C s t → C t a → M.step t a = some u → Steps C s u

/-- No condition on the steps. -/
def Always : σ → α → Prop := fun _ _ => True

/-- States reached from an initial state by steps that all meet `C`. -/
def ReachableBy (C : σ → α → Prop) (s : σ) : Prop :=
  ∃ s₀, M.init s₀ ∧ M.Steps C s₀ s

/-- States reached from an initial state. -/
abbrev Reachable (s : σ) : Prop := M.ReachableBy Always s

/-- Execute a list of actions; `none` when one of them is not enabled or does
not meet `C`. -/
def exec (C : σ → α → Prop) [∀ s a, Decidable (C s a)] : σ → List α → Option σ
  | s, [] => some s
  | s, a :: as => if C s a then (M.step s a).bind fun t => exec C t as else none

instance (s : σ) (a : α) : Decidable (Always s a) := inferInstanceAs (Decidable True)

variable {M} {C D : σ → α → Prop} {s t u : σ}

theorem Steps.single {a : α} (hc : C s a) (h : M.step s a = some t) : M.Steps C s t :=
  .tail .refl hc h

theorem Steps.trans (h₁ : M.Steps C s t) (h₂ : M.Steps C t u) : M.Steps C s u := by
  induction h₂ with
  | refl => exact h₁
  | tail _ hc hs ih => exact .tail ih hc hs

theorem Steps.mono (hCD : ∀ s a, C s a → D s a) (h : M.Steps C s t) : M.Steps D s t := by
  induction h with
  | refl => exact .refl
  | tail _ hc hs ih => exact .tail ih (hCD _ _ hc) hs

/-- What every step that meets the condition preserves holds along the run. -/
theorem Steps.invariant {P : σ → Prop}
    (hstep : ∀ s a t, P s → C s a → M.step s a = some t → P t)
    (h : M.Steps C s t) (hs : P s) : P t := by
  induction h with
  | refl => exact hs
  | tail _ hc hst ih => exact hstep _ _ _ ih hc hst

/-- The same, with an invariant `I` already known to hold along the run. -/
theorem Steps.invariant_of {I P : σ → Prop}
    (hI : ∀ s a t, I s → C s a → M.step s a = some t → I t)
    (hP : ∀ s a t, I s → P s → C s a → M.step s a = some t → P t)
    (h : M.Steps C s t) (hi : I s) (hs : P s) : P t :=
  (h.invariant (P := fun s => I s ∧ P s)
    (fun s a t hp hc hst => ⟨hI s a t hp.1 hc hst, hP s a t hp.1 hp.2 hc hst⟩) ⟨hi, hs⟩).2

theorem ReachableBy.mono (hCD : ∀ s a, C s a → D s a) (hs : M.ReachableBy C s) :
    M.ReachableBy D s := by
  obtain ⟨s₀, hi, hr⟩ := hs
  exact ⟨s₀, hi, hr.mono hCD⟩

theorem ReachableBy.steps (hs : M.ReachableBy C s) (h : M.Steps C s t) :
    M.ReachableBy C t := by
  obtain ⟨s₀, hi, hr⟩ := hs
  exact ⟨s₀, hi, hr.trans h⟩

theorem ReachableBy.invariant {P : σ → Prop} (hinit : ∀ s, M.init s → P s)
    (hstep : ∀ s a t, P s → C s a → M.step s a = some t → P t)
    (hs : M.ReachableBy C s) : P s := by
  obtain ⟨s₀, hi, hr⟩ := hs
  exact hr.invariant hstep (hinit s₀ hi)

/-- The first step of a run. -/
theorem Steps.head_cases (h : M.Steps C s u) :
    s = u ∨ ∃ a t, C s a ∧ M.step s a = some t ∧ M.Steps C t u := by
  induction h with
  | refl => exact .inl rfl
  | tail _ hc hs ih =>
      rcases ih with rfl | ⟨a, r, hca, hsa, hr⟩
      · exact .inr ⟨_, _, hc, hs, .refl⟩
      · exact .inr ⟨a, r, hca, hsa, .tail hr hc hs⟩

/-- Forward simulation: where the other system matches every step, it matches every run. -/
theorem Steps.simulates {τ β : Type} {N : TSys τ β} {E : τ → β → Prop} {I : σ → Prop}
    {R : σ → τ → Prop} (hI : ∀ s a t, I s → C s a → M.step s a = some t → I t)
    (hR : ∀ s a t x, I s → C s a → M.step s a = some t → R s x → ∃ y, N.Steps E x y ∧ R t y)
    (h : M.Steps C s t) (hi : I s) {x : τ} (hx : R s x) : ∃ y, N.Steps E x y ∧ R t y := by
  induction h with
  | refl => exact ⟨x, .refl, hx⟩
  | tail hr hc hs ih =>
      obtain ⟨y, hxy, hy⟩ := ih
      obtain ⟨z, hyz, hz⟩ := hR _ _ _ _ (hr.invariant hI hi) hc hs hy
      exact ⟨z, hxy.trans hyz, hz⟩

/-- Runs of one action end in one state. -/
theorem Steps.eq_of_stuck {a₀ : α} (hC : ∀ s a, C s a → a = a₀) (ht : M.Steps C s t)
    (hu : M.Steps C s u) (hst : M.step t a₀ = none) (hsu : M.step u a₀ = none) : t = u := by
  have hjoin : M.Steps C u t := by
    clear hsu
    induction hu with
    | refl => exact ht
    | tail _ hc hs ih =>
        obtain rfl := hC _ _ hc
        rcases ih.head_cases with rfl | ⟨a, r, hca, hsa, hr⟩
        · rw [hst] at hs
          exact absurd hs (by simp)
        · obtain rfl := hC _ _ hca
          obtain rfl := Option.some.inj (hs.symm.trans hsa)
          exact hr
  rcases hjoin.head_cases with heq | ⟨a, r, hca, hsa, -⟩
  · exact heq.symm
  · obtain rfl := hC _ _ hca
    rw [hsu] at hsa
    exact absurd hsa (by simp)

/-- An executed schedule is a run. -/
theorem Steps.of_exec [∀ s a, Decidable (C s a)] :
    ∀ (as : List α) {s t : σ}, M.exec C s as = some t → M.Steps C s t
  | [], s, t, h => by
      obtain rfl : s = t := by simpa [exec] using h
      exact .refl
  | a :: as, s, t, h => by
      simp only [exec, Option.ite_none_right_eq_some] at h
      obtain ⟨hc, h⟩ := h
      obtain ⟨r, hr, ht⟩ := Option.bind_eq_some_iff.mp h
      exact (Steps.single hc hr).trans (Steps.of_exec as ht)

end TSys

/-- Where each wait for a party that waits itself lowers the rank, the parties that wait for each
other end at one that does not wait. -/
theorem exists_not_waiting {ι : Type} {W : ι → ι → Prop} {rank : ι → Nat}
    (h : ∀ a b c, W a b → W b c → rank b < rank a) (a : ι) :
    ∃ b, Relation.ReflTransGen W a b ∧ ∀ c, ¬ W b c := by
  induction hn : rank a using Nat.strong_induction_on generalizing a with
  | _ n ih =>
      subst hn
      by_cases hwait : ∃ b, W a b
      · obtain ⟨b, hab⟩ := hwait
        by_cases hnext : ∃ c, W b c
        · obtain ⟨c, hbc⟩ := hnext
          obtain ⟨d, hbd, hd⟩ := ih _ (h a b c hab hbc) b rfl
          exact ⟨d, .head hab hbd, hd⟩
        · exact ⟨b, .single hab, not_exists.mp hnext⟩
      · exact ⟨a, .refl, not_exists.mp hwait⟩

end Lib
