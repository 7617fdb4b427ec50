/-!
# Runs of a total step function

`runSteps step s as` lists the steps of the run that does `as` from `s`, each as the state before
it and what is done there.

* **invariants** (`inv_of_runSteps`): what the steps of a run preserve holds before each of them;
* **exact conditions** (`forall_runSteps_iff`): where a condition on a step is what it needs to keep
  an invariant, and a step without it shows the fault at once, a run is free of faults exactly when
  all its steps meet the condition.
-/

namespace Lib

variable {σ α : Type} {step : σ → α → σ} {I : σ → Prop} {C P : σ → α → Prop}

/-- The steps of a run. -/
def runSteps (step : σ → α → σ) : σ → List α → List (σ × α)
  | _, [] => []
  | s, a :: as => (s, a) :: runSteps step (step s a) as

theorem forall_runSteps_cons {s : σ} {a : α} {as : List α} :
    (∀ x ∈ runSteps step s (a :: as), P x.1 x.2) ↔
      P s a ∧ ∀ x ∈ runSteps step (step s a) as, P x.1 x.2 :=
  List.forall_mem_cons

/-- What every step that meets the condition preserves holds before each step. -/
theorem inv_of_runSteps (hstep : ∀ s a, I s → C s a → I (step s a)) {s : σ} {as : List α} (hs : I s)
    (hC : ∀ x ∈ runSteps step s as, C x.1 x.2) : ∀ x ∈ runSteps step s as, I x.1 := by
  induction as generalizing s with
  | nil =>
      intro x hx
      cases hx
  | cons a as ih =>
      obtain ⟨ha, hrest⟩ := forall_runSteps_cons.mp hC
      intro x hx
      rcases List.mem_cons.mp hx with rfl | hx
      · exact hs
      · exact ih (hstep s a hs ha) hrest x hx

/-- A run keeps its promise exactly when its steps all meet the condition. -/
theorem forall_runSteps_iff (hgood : ∀ s a, I s → C s a → P s a ∧ I (step s a))
    (hbad : ∀ s a, I s → P s a → C s a) {s : σ} (hs : I s) (as : List α) :
    (∀ x ∈ runSteps step s as, P x.1 x.2) ↔ ∀ x ∈ runSteps step s as, C x.1 x.2 := by
  induction as generalizing s with
  | nil => exact ⟨fun _ _ hx => absurd hx List.not_mem_nil,
      fun _ _ hx => absurd hx List.not_mem_nil⟩
  | cons a as ih =>
      rw [forall_runSteps_cons, forall_runSteps_cons]
      constructor
      · rintro ⟨hP, hrest⟩
        have hC := hbad s a hs hP
        exact ⟨hC, (ih (hgood s a hs hC).2).mp hrest⟩
      · rintro ⟨hC, hrest⟩
        obtain ⟨hP, hI⟩ := hgood s a hs hC
        exact ⟨hP, (ih hI).mpr hrest⟩

end Lib
