import Mathlib.Logic.Basic

/-!
# Computations that may fail

Step functions in `do` notation are taken apart at their binds:

* **`Except`** (`bind_ok`): a sequence succeeds exactly when its parts do;
* **`EStateM`** (`run_bind_ok`, `run_bind_error`): what the first part returns decides,
  and what it has written stays;
* **assertions** (`Ends`): what holds after a computation, whether it returns or fails,
  with a rule for each way to build one.
-/

namespace Lib

theorem bind_ok {ε α β : Type} {x : Except ε α} {f : α → Except ε β} {b : β} :
    (x >>= f) = .ok b ↔ ∃ a, x = .ok a ∧ f a = .ok b := by
  cases x <;> simp [bind, Except.bind]

/-- A sequence succeeds when its parts do. -/
theorem exists_bind_ok {ε α β : Type} {x : Except ε α} {f : α → Except ε β} {a : α} (hx : x = .ok a)
    (hf : ∃ b, f a = .ok b) : ∃ b, (x >>= f) = .ok b := by
  obtain ⟨b, hb⟩ := hf
  exact ⟨b, bind_ok.mpr ⟨a, hx, hb⟩⟩

section State

variable {ε σ α β : Type} {x : EStateM ε σ α} {f : α → EStateM ε σ β} {s s' : σ}

theorem run_bind_ok {a : α} (h : x s = .ok a s') : (x >>= f) s = f a s' := by
  show EStateM.bind x f s = _
  unfold EStateM.bind
  rw [h]

theorem run_bind_error {e : ε} (h : x s = .error e s') : (x >>= f) s = .error e s' := by
  show EStateM.bind x f s = _
  unfold EStateM.bind
  rw [h]

/-- A sequence returns exactly when its parts do. -/
theorem run_bind_eq_ok {b : β} : (x >>= f) s = .ok b s' ↔ ∃ a r, x s = .ok a r ∧
      f a r = .ok b s' := by
  cases hrun : x s with
  | ok a r =>
      rw [run_bind_ok hrun]
      constructor
      · exact fun h => ⟨a, r, rfl, h⟩
      · rintro ⟨a', r', h, hf⟩
        obtain ⟨rfl, rfl⟩ := EStateM.Result.ok.inj h
        exact hf
  | error e r =>
      rw [run_bind_error hrun]
      simp

/-- From a state with `P` the computation returns with `Q` or fails with `E`. -/
def Ends (P : σ → Prop) (x : EStateM ε σ α) (Q : α → σ → Prop) (E : σ → Prop) : Prop :=
  ∀ s, P s → match x s with
    | .ok a s' => Q a s'
    | .error _ s' => E s'

namespace Ends

variable {P P' : σ → Prop} {Q : α → σ → Prop} {R : β → σ → Prop} {E : σ → Prop}

theorem bind (hx : Ends P x Q E) (hf : ∀ a, Ends (Q a) (f a) R E) : Ends P (x >>= f) R E := by
  intro s hs
  have h := hx s hs
  cases hrun : x s with
  | ok a s' =>
      rw [hrun] at h
      rw [run_bind_ok hrun]
      exact hf a s' h
  | error e s' =>
      rw [hrun] at h
      rw [run_bind_error hrun]
      exact h

theorem pure {a : α} (h : ∀ s, P s → Q a s) : Ends P (Pure.pure a : EStateM ε σ α) Q E :=
  fun s hs => h s hs

theorem throw {e : ε} (h : ∀ s, P s → E s) : Ends P (MonadExcept.throw e : EStateM ε σ α) Q E :=
  fun s hs => h s hs

/-- The state is read first. -/
theorem get_bind {f : σ → EStateM ε σ β} (h : ∀ s, P s → Ends (fun s' => s' = s) (f s) R E) :
    Ends P (get >>= f) R E :=
  fun s hs => h s hs s rfl

theorem modifyGet {g : σ → α × σ} (h : ∀ s, P s → Q (g s).1 (g s).2) :
    Ends P (MonadStateOf.modifyGet g : EStateM ε σ α) Q E :=
  fun s hs => h s hs

theorem ite {c : Prop} [Decidable c] {y : EStateM ε σ α} (hx : c → Ends P x Q E)
    (hy : ¬ c → Ends P y Q E) : Ends P (if c then x else y) Q E := by
  split
  · exact hx ‹c›
  · exact hy ‹¬ c›

end Ends

end State

end Lib
