import Db7.Lib.TSys

/-!
# Objects that many clients use at once

`object apply init` is the object as its clients would like to have it: a call takes effect at one
moment between its start and its return. A concurrent program is linearizable when every run of it
is, for whoever sees its calls and returns only, a run of that object.

* **traces** (`TSys.Trace`): runs with their actions;
* **simulation** (`TSys.Trace.matches`, `TSys.Trace.simulates`): where each step of a program is a
  run of a system that looks the same, each run of the program is.
-/

namespace Lib

namespace TSys

variable {σ τ α β γ : Type}

/-- A run with its actions. -/
inductive Trace (M : TSys σ α) (C : σ → α → Prop) : σ → List α → σ → Prop
  | nil {s} : Trace M C s [] s
  | snoc {s as t a u} : Trace M C s as t → C t a → M.step t a = some u → Trace M C s (as ++ [a]) u

variable {M : TSys σ α} {N : TSys τ β} {C : σ → α → Prop} {s t u : σ}

theorem Trace.single {a : α} (hc : C s a) (hs : M.step s a = some t) : M.Trace C s [a] t :=
  .snoc .nil hc hs

theorem Trace.append {as bs : List α} (h₁ : M.Trace C s as t) (h₂ : M.Trace C t bs u) :
    M.Trace C s (as ++ bs) u := by
  induction h₂ with
  | nil => simpa using h₁
  | snoc _ hc hs ih =>
      rw [← List.append_assoc]
      exact .snoc ih hc hs

theorem Trace.of_exec [∀ s a, Decidable (C s a)] :
    ∀ (as : List α) {s t : σ}, M.exec C s as = some t → M.Trace C s as t
  | [], s, t, h => by
      obtain rfl : s = t := by simpa [exec] using h
      exact .nil
  | a :: as, s, t, h => by
      simp only [exec, Option.ite_none_right_eq_some] at h
      obtain ⟨hc, h⟩ := h
      obtain ⟨r, hr, ht⟩ := Option.bind_eq_some_iff.mp h
      exact (Trace.single hc hr).append (.of_exec as ht)

theorem Trace.mono {D : σ → α → Prop} {as : List α} (hCD : ∀ s a, C s a → D s a)
    (h : M.Trace C s as t) :
    M.Trace D s as t := by
  induction h with
  | nil => exact .nil
  | snoc _ hc hs ih => exact .snoc ih (hCD _ _ hc) hs

/-- Each step of `M` from a state related by `R` is a run of `N` in which the same is seen, and so
is each run. -/
theorem Trace.matches {R : σ → τ → Prop} {E : τ → β → Prop} {see : α → Option γ}
    {see' : β → Option γ} (hstep : ∀ s a s' x, C s a → M.step s a = some s' → R s x →
      ∃ bs y, bs.filterMap see' = (see a).toList ∧ N.Trace E x bs y ∧ R s' y)
    {as : List α} (h : M.Trace C s as t) {x : τ} (hx : R s x) :
    ∃ bs y, bs.filterMap see' = as.filterMap see ∧ N.Trace E x bs y ∧ R t y := by
  induction h with
  | nil => exact ⟨[], x, rfl, .nil, hx⟩
  | @snoc as t a u _ hc hst ih =>
      obtain ⟨bs, y, hsee, hrun, hy⟩ := ih
      obtain ⟨bs', z, hsee', hrun', hz⟩ := hstep t a u y hc hst hy
      refine ⟨bs ++ bs', z, ?_, hrun.append hrun', hz⟩
      rw [List.filterMap_append, List.filterMap_append, hsee, hsee']
      cases hsa : see a <;> simp [hsa]

/-- Where the states of `N` are computed from those of `M`. -/
theorem Trace.simulates {abs : σ → τ} {see : α → Option γ} {see' : β → Option γ} {I : σ → Prop}
    (hI : ∀ s a s', I s → C s a → M.step s a = some s' → I s')
    (hstep : ∀ s a s', I s → C s a → M.step s a = some s' →
      ∃ bs, bs.filterMap see' = (see a).toList ∧ N.Trace Always (abs s) bs (abs s'))
    {as : List α} (h : M.Trace C s as t) (hs : I s) :
    ∃ bs, bs.filterMap see' = as.filterMap see ∧ N.Trace Always (abs s) bs (abs t) := by
  have hmatch : ∀ s a s' x, C s a → M.step s a = some s' → I s ∧ x = abs s →
      ∃ bs y, bs.filterMap see' = (see a).toList ∧ N.Trace Always x bs y ∧ I s' ∧ y = abs s' := by
    rintro s a s' _ hc hst ⟨hinv, rfl⟩
    obtain ⟨bs, hsee, hrun⟩ := hstep s a s' hinv hc hst
    exact ⟨bs, _, hsee, hrun, hI s a s' hinv hc hst, rfl⟩
  obtain ⟨bs, y, hsee, hrun, -, rfl⟩ := h.matches hmatch ⟨hs, rfl⟩
  exact ⟨bs, hsee, hrun⟩

end TSys

namespace Atomic

open Function

/-- A client: without a call, or in a call that has taken effect or not. -/
inductive Client (O : Type)
  | idle
  | called (o : O)
  | applied (o : O)

/-- The value of the object, and its clients. -/
structure State (σ O T : Type) where
  value : σ
  clients : T → Client O

inductive Act (O T : Type)
  | call (t : T) (o : O)
  | apply (t : T)
  | ret (t : T)

/-- What the outside sees. -/
inductive Event (O T : Type)
  | call (t : T) (o : O)
  | ret (t : T)

def Act.seen {O T : Type} : Act O T → Option (Event O T)
  | call t o => some (.call t o)
  | ret t => some (.ret t)
  | apply _ => none

variable {σ O T : Type} [DecidableEq T]

def step (apply : O → σ → σ) (s : State σ O T) : Act O T → Option (State σ O T)
  | .call t o =>
      match s.clients t with
      | .idle => some { s with clients := update s.clients t (.called o) }
      | _ => none
  | .apply t =>
      match s.clients t with
      | .called o => some ⟨apply o s.value, update s.clients t (.applied o)⟩
      | _ => none
  | .ret t =>
      match s.clients t with
      | .applied _ => some { s with clients := update s.clients t .idle }
      | _ => none

/-- The object, with the effect of its calls and the value that it starts with. -/
def object (apply : O → σ → σ) (init : σ) : TSys (State σ O T) (Act O T) :=
  ⟨fun s => s = ⟨init, fun _ => .idle⟩, step apply⟩

section Steps

variable {apply : O → σ → σ} {init : σ} {s s' : State σ O T} {t : T} {o : O}

theorem trace_call (h : s.clients t = .idle)
    (hs : s' = { s with clients := update s.clients t (.called o) }) :
    (object apply init).Trace TSys.Always s [.call t o] s' := by
  refine .single trivial ?_
  show step apply s (.call t o) = some s'
  rw [hs, step, h]

theorem trace_apply (h : s.clients t = .called o)
    (hs : s' = ⟨apply o s.value, update s.clients t (.applied o)⟩) :
    (object apply init).Trace TSys.Always s [.apply t] s' := by
  refine .single trivial ?_
  show step apply s (.apply t) = some s'
  rw [hs, step, h]

theorem trace_ret (h : s.clients t = .applied o)
    (hs : s' = { s with clients := update s.clients t .idle }) :
    (object apply init).Trace TSys.Always s [.ret t] s' := by
  refine .single trivial ?_
  show step apply s (.ret t) = some s'
  rw [hs, step, h]

end Steps

end Atomic

end Lib
