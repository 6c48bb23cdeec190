/-!
# Runs of a labelled transition system

The generic notion of execution the development is stated over. A system is a
step relation `Step : σ → α → σ → Prop` (state, label, next state) with an
initial state; a run is a finite sequence of labels together with the state it
leads to, extended one step at a time at its end.

- `Run Step s₀ as s`: the labels `as` lead from `s₀` to `s`.
- `Reachable Step s₀ s`: some run leads from `s₀` to `s`.
- `Reachable.invariant`: the induction rule for safety properties. The step
  obligation may assume that the state it starts from is reachable, so
  invariants are proved one on top of the other.
- `Run.simulate`: the induction rule for simulations of one system by another.
- `Run.length_add_le`: the rule for runs that must end.
-/

namespace Transition

universe u v

variable {σ : Type u} {α : Type v} {Step : σ → α → σ → Prop} {s₀ : σ}

/-- Finite runs: the labels taken so far and the state they lead to. -/
inductive Run (Step : σ → α → σ → Prop) (s₀ : σ) : List α → σ → Prop where
  | nil : Run Step s₀ [] s₀
  | snoc {as : List α} {a : α} {s s' : σ} :
      Run Step s₀ as s → Step s a s' → Run Step s₀ (as ++ [a]) s'

theorem Run.append {as bs : List α} {s s' : σ} (h : Run Step s₀ as s) (h' : Run Step s bs s') :
    Run Step s₀ (as ++ bs) s' := by
  induction h' with
  | nil =>
    rw [List.append_nil]
    exact h
  | snoc _ hs ih =>
    rw [← List.append_assoc]
    exact ih.snoc hs

/-- A state some run leads to. -/
def Reachable (Step : σ → α → σ → Prop) (s₀ s : σ) : Prop :=
  ∃ as, Run Step s₀ as s

theorem Reachable.init : Reachable Step s₀ s₀ :=
  ⟨[], .nil⟩

theorem Reachable.step {s s' : σ} {a : α} (h : Reachable Step s₀ s)
    (hs : Step s a s') : Reachable Step s₀ s' := by
  obtain ⟨as, hrun⟩ := h
  exact ⟨as ++ [a], hrun.snoc hs⟩

/-- A system with more steps reaches more states. -/
theorem Reachable.mono {Step' : σ → α → σ → Prop} (hsub : ∀ s a s', Step s a s' → Step' s a s')
    {s : σ} (h : Reachable Step s₀ s) : Reachable Step' s₀ s := by
  obtain ⟨as, hrun⟩ := h
  induction hrun with
  | nil => exact .init
  | snoc _ hs ih => exact ih.step (hsub _ _ _ hs)

/-- **Invariant induction.** A property of the initial state that every step
from a reachable state preserves holds in every reachable state. -/
theorem Reachable.invariant {I : σ → Prop} (h0 : I s₀)
    (hstep : ∀ s a s', Reachable Step s₀ s → I s → Step s a s' → I s')
    {s : σ} (h : Reachable Step s₀ s) : I s := by
  obtain ⟨as, hrun⟩ := h
  induction hrun with
  | nil => exact h0
  | snoc hr hs ih => exact hstep _ _ _ ⟨_, hr⟩ ih hs

/-- **Simulation.** Where steps from related states can be answered, label by label, so
that the states stay related, so can runs. -/
theorem Run.simulate {σ' : Type u} {α' : Type v} {Step' : σ' → α' → σ' → Prop} {s₀' : σ'}
    {R : σ → σ' → Prop} {f : α → α'} (h₀ : R s₀ s₀')
    (hstep : ∀ {s a s' e}, R s e → Step s a s' → ∃ e', Step' e (f a) e' ∧ R s' e')
    {as : List α} {s : σ} (hr : Run Step s₀ as s) :
    ∃ e, Run Step' s₀' (as.map f) e ∧ R s e := by
  induction hr with
  | nil => exact ⟨s₀', .nil, h₀⟩
  | snoc _ hs ih =>
    obtain ⟨e, hrun, h⟩ := ih
    obtain ⟨e', hs', h'⟩ := hstep h hs
    refine ⟨e', ?_, h'⟩
    rw [List.map_append]
    exact hrun.snoc hs'

/-- **Bounded runs.** A run whose steps lower a measure is no longer than the measure
was at its start. -/
theorem Run.length_add_le {m : σ → Nat}
    (hstep : ∀ {s a s'}, Reachable Step s₀ s → Step s a s' → m s' < m s) {as : List α} {s : σ}
    (hr : Run Step s₀ as s) : as.length + m s ≤ m s₀ := by
  induction hr with
  | nil => exact Nat.le_of_eq (Nat.zero_add _)
  | snoc hr hs ih =>
    have hlt := hstep ⟨_, hr⟩ hs
    rw [List.length_append, List.length_singleton]
    omega

end Transition
