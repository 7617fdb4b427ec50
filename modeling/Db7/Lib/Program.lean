import Db7.Lib.Fallible

/-!
# Programs of atomic calls

A program is a tree: a result, a failure, or a call with what follows on each of its
answers. Alone it is run to its end (`exec`); among others it makes one call at a time.

* **sequencing** (`Alone.bind`): alone, a sequence is the sequence of its parts;
* **interference** (`Within`): every call is allowed in the state in which it is made, if
  the other programs only do what is relied on. The assertions in between are stable;
* **rules** (`Within.bind`, `Within.perform`, `Within.ite`).
-/

namespace Lib

/-- A program with calls `C`, answered by values of `R`. -/
inductive Prog (C : Type) (R : C → Type) (ε α : Type) : Type
  | done (a : α)
  | fail (e : ε)
  | call (c : C) (k : R c → Prog C R ε α)

namespace Prog

variable {C : Type} {R : C → Type} {ε σ α β : Type}

/-- One program after the other. -/
def bind : Prog C R ε α → (α → Prog C R ε β) → Prog C R ε β
  | done a, f => f a
  | fail e, _ => fail e
  | call c k, f => call c fun r => (k r).bind f

instance : Monad (Prog C R ε) where
  pure := done
  bind := bind

/-- A single call. -/
def perform (c : C) : Prog C R ε (R c) := call c done

/-- The program with nothing between its calls. -/
def exec (run : (c : C) → σ → R c × σ) : Prog C R ε α → EStateM ε σ α
  | done a => pure a
  | fail e => throw e
  | call c k => fun s => (k (run c s).1).exec run (run c s).2

section Exec

variable {run : (c : C) → σ → R c × σ}

theorem exec_bind (p : Prog C R ε α) (f : α → Prog C R ε β) (s : σ) :
    (p >>= f).exec run s = (p.exec run >>= fun a => (f a).exec run) s := by
  show (p.bind f).exec run s = _
  induction p generalizing s with
  | done a => rfl
  | fail e => rfl
  | call c k ih => exact ih (run c s).1 (run c s).2

/-- What every call keeps, the program keeps. -/
theorem exec_keeps {P : σ → Prop} (h : ∀ c s, P s → P (run c s).2) (p : Prog C R ε α) :
    Ends P (p.exec run) (fun _ => P) P := by
  induction p with
  | done a => exact Ends.pure fun _ hs => hs
  | fail e => exact Ends.throw fun _ hs => hs
  | call c k ih => exact fun s hs => ih (run c s).1 (run c s).2 (h c s hs)

/-- From the states with `P` the program is, alone, the computation. -/
def Alone (run : (c : C) → σ → R c × σ) (P : σ → Prop) (p : Prog C R ε α) (m : EStateM ε σ α) :
    Prop :=
  ∀ s, P s → p.exec run s = m s

theorem Alone.bind {P : σ → Prop} {p : Prog C R ε α} {m : EStateM ε σ α} {f : α → Prog C R ε β}
    {g : α → EStateM ε σ β} (hkeeps : ∀ c s, P s → P (run c s).2) (hp : Alone run P p m)
    (hf : ∀ a, Alone run P (f a) (g a)) : Alone run P (p >>= f) (m >>= g) := by
  intro s hs
  rw [exec_bind]
  have hend := exec_keeps hkeeps p s hs
  have hm := hp s hs
  cases hrun : p.exec run s with
  | ok a s' =>
      rw [hrun] at hend hm
      rw [run_bind_ok hrun, run_bind_ok hm.symm]
      exact hf a s' hend
  | error e s' =>
      rw [hrun] at hm
      rw [run_bind_error hrun, run_bind_error hm.symm]

theorem Alone.ite {P : σ → Prop} {c : Prop} [Decidable c] {p q : Prog C R ε α} {m n : EStateM ε σ α}
    (hp : Alone run P p m) (hq : Alone run P q n) :
    Alone run P (if c then p else q) (if c then m else n) := by
  split
  · exact hp
  · exact hq

end Exec

/-! ## Interference -/

/-- What the others do does not make it false. -/
def Stable (rely : σ → σ → Prop) (P : σ → Prop) : Prop := ∀ s s', rely s s' → P s → P s'

section Within

variable (run : (c : C) → σ → R c × σ) (rely : σ → σ → Prop) (allowed : C → σ → Prop)

/-- From a state with `P` the program makes allowed calls only, and returns with `Q` or
fails, while the others may act between its calls. -/
def Within : (σ → Prop) → Prog C R ε α → (α → σ → Prop) → Prop
  | P, done a, Q => ∀ s, P s → Q a s
  | _, fail _, _ => True
  | P, call c k, Q => (∀ s, P s → allowed c s) ∧ ∃ M : R c → σ → Prop,
      (∀ s, P s → M (run c s).1 (run c s).2) ∧ (∀ r, Stable rely (M r)) ∧ ∀ r, Within (M r) (k r) Q

end Within

/-- Every call of the program is one of these. -/
def All (ok : C → Prop) : Prog C R ε α → Prop
  | done _ => True
  | fail _ => True
  | call c k => ok c ∧ ∀ r, (k r).All ok

namespace All

variable {ok : C → Prop} {p q : Prog C R ε α} {f : α → Prog C R ε β}

theorem bind (hp : p.All ok) (hf : ∀ a, (f a).All ok) : (p >>= f).All ok := by
  show (p.bind f).All ok
  induction p with
  | done a => exact hf a
  | fail e => trivial
  | call c k ih => exact ⟨hp.1, fun r => ih r (hp.2 r)⟩

theorem perform {c : C} (h : ok c) : (perform c : Prog C R ε (R c)).All ok := ⟨h, fun _ => trivial⟩

theorem ite {c : Prop} [Decidable c] (hp : p.All ok) (hq : q.All ok) :
    (if c then p else q).All ok := by
  split
  · exact hp
  · exact hq

end All

namespace Within

variable {run : (c : C) → σ → R c × σ} {rely : σ → σ → Prop} {allowed : C → σ → Prop}
  {P P' : σ → Prop} {Q Q' : α → σ → Prop} {S : β → σ → Prop}

theorem imp {p : Prog C R ε α} (h : Within run rely allowed P p Q) (hP : ∀ s, P' s → P s)
    (hQ : ∀ a s, Q a s → Q' a s) : Within run rely allowed P' p Q' := by
  induction p generalizing P P' with
  | done a => exact fun s hs => hQ a s (h s (hP s hs))
  | fail e => trivial
  | call c k ih =>
      obtain ⟨hallowed, M, hrun, hstable, hk⟩ := h
      exact ⟨fun s hs => hallowed s (hP s hs), M, fun s hs => hrun s (hP s hs), hstable,
        fun r => ih r (hk r) fun _ hs => hs⟩

theorem pure {a : α} (h : ∀ s, P s → Q a s) :
    Within run rely allowed P (Pure.pure a : Prog C R ε α) Q := h

theorem bind {p : Prog C R ε α} {f : α → Prog C R ε β} (hp : Within run rely allowed P p Q)
    (hf : ∀ a, Within run rely allowed (Q a) (f a) S) : Within run rely allowed P (p >>= f) S := by
  show Within run rely allowed P (p.bind f) S
  induction p generalizing P with
  | done a => exact (hf a).imp (fun s hs => hp s hs) fun _ _ hs => hs
  | fail e => trivial
  | call c k ih =>
      obtain ⟨hallowed, M, hrun, hstable, hk⟩ := hp
      exact ⟨hallowed, M, hrun, hstable, fun r => ih r (hk r)⟩

/-- A single call, with a stable assertion for each answer. -/
theorem perform {c : C} {M : R c → σ → Prop} (hallowed : ∀ s, P s → allowed c s)
    (hrun : ∀ s, P s → M (run c s).1 (run c s).2) (hstable : ∀ r, Stable rely (M r)) :
    Within run rely allowed P (perform c : Prog C R ε (R c)) M :=
  ⟨hallowed, M, hrun, hstable, fun _ _ hs => hs⟩

theorem ite {c : Prop} [Decidable c] {p q : Prog C R ε α} (hp : c → Within run rely allowed P p Q)
    (hq : ¬ c → Within run rely allowed P q Q) :
    Within run rely allowed P (if c then p else q) Q := by
  split
  · exact hp ‹c›
  · exact hq ‹¬ c›

/-- A program whose calls are all allowed where `P` holds, and keep it. -/
theorem of_all {ok : C → Prop} {p : Prog C R ε α} (h : p.All ok)
    (hallowed : ∀ c s, ok c → P s → allowed c s)
    (hkeeps : ∀ c s, ok c → P s → P (run c s).2) (hstable : Stable rely P) :
    Within run rely allowed P p fun _ => P := by
  induction p with
  | done a => exact fun _ hs => hs
  | fail e => trivial
  | call c k ih =>
      exact ⟨fun s hs => hallowed c s h.1 hs, fun _ => P, fun s hs => hkeeps c s h.1 hs,
        fun _ => hstable,
        fun r => ih r (h.2 r)⟩

/-- The next call is allowed, and what follows is within the bounds again, from an
assertion that the others keep. -/
theorem step {c : C} {k : R c → Prog C R ε α} (h : Within run rely allowed P (call c k) Q)
    {s : σ} (hs : P s) :
    allowed c s ∧ ∃ M : σ → Prop, M (run c s).2 ∧ Stable rely M ∧
      Within run rely allowed M (k (run c s).1) Q := by
  obtain ⟨hallowed, M, hrun, hstable, hk⟩ := h
  exact ⟨hallowed s hs, M (run c s).1, hrun s hs, hstable _, hk _⟩

end Within

end Prog

end Lib
