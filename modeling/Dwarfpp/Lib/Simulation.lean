/-
# Runs with labels, and simulation

`Traces step s₀ tr s` is a run from `s₀` to `s` whose steps bear the labels `tr`.  A simulation is a
relation between two systems such that each step of the one is a step of the other with the same
label; it then carries over to runs (`Simulation.traces`).  The relation may grow weaker with every
step, as one does that bounds something the steps use up.
-/

import Mathlib

namespace Dwarfpp
namespace Lib

variable {σ τ ι : Type}

/-- The runs from `s₀`, with the labels of their steps. -/
inductive Traces (step : σ → ι → σ → Prop) (s₀ : σ) : List ι → σ → Prop
  | nil : Traces step s₀ [] s₀
  | snoc {tr : List ι} {l : ι} {s s' : σ} (h : Traces step s₀ tr s) (hstep : step s l s') :
      Traces step s₀ (tr ++ [l]) s'

/-- Related states stay so along the steps of `step`, as long as there are steps left. -/
def Simulation (step : σ → ι → σ → Prop) (step' : τ → ι → τ → Prop) (rel : ℕ → τ → σ → Prop) :
    Prop :=
  ∀ {n a c l c'}, rel (n + 1) a c → step c l c' → ∃ a', step' a l a' ∧ rel n a' c'

variable {step : σ → ι → σ → Prop} {step' : τ → ι → τ → Prop} {rel : ℕ → τ → σ → Prop}

/-- **A simulation carries over to runs.** -/
theorem Simulation.traces (h : Simulation step step' rel) {tr : List ι} {n : ℕ} {a : τ} {c c' : σ}
    (hrel : rel (tr.length + n) a c) (hrun : Traces step c tr c') :
    ∃ a', Traces step' a tr a' ∧ rel n a' c' := by
  induction hrun generalizing n with
  | nil =>
    rw [List.length_nil, Nat.zero_add] at hrel
    exact ⟨a, .nil, hrel⟩
  | @snoc tr l s s' _ hstep ih =>
    rw [List.length_append, List.length_singleton, Nat.add_assoc, Nat.add_comm 1] at hrel
    obtain ⟨a₁, htr, h₁⟩ := ih hrel
    obtain ⟨a', ha, h'⟩ := h h₁ hstep
    exact ⟨a', .snoc htr ha, h'⟩

end Lib
end Dwarfpp
