/-
# Where an offset lands

Consecutive intervals of given sizes, laid out from zero: `Lands sizes x k` says
that `x` is in the `k`th.  An offset lands in one of them just if it is below the
total, and in no more than one.
-/

import Mathlib

namespace Dwarfpp
namespace Lib

/-- `x` lies in the `k`th of the intervals of the given sizes. -/
def Lands (sizes : List ℕ) (x k : ℕ) : Prop :=
  k < sizes.length ∧ (sizes.take k).sum ≤ x ∧ x < (sizes.take (k + 1)).sum

namespace Lands

variable {a x k : ℕ} {sizes : List ℕ}

theorem not_nil : ¬Lands [] x k := fun h => Nat.not_lt_zero _ h.1

@[simp] theorem cons_zero : Lands (a :: sizes) x 0 ↔ x < a := by
  simp [Lands]

@[simp] theorem cons_succ : Lands (a :: sizes) x (k + 1) ↔ a ≤ x ∧ Lands sizes (x - a) k := by
  simp only [Lands, List.length_cons, List.take_succ_cons, List.sum_cons]
  omega

/-- **Below the total an offset lands somewhere.** -/
theorem exists_iff : (∃ k, Lands sizes x k) ↔ x < sizes.sum := by
  induction sizes generalizing x with
  | nil => exact iff_of_false (fun ⟨k, h⟩ => not_nil h) (Nat.not_lt_zero _)
  | cons a sizes ih =>
    rw [List.sum_cons]
    constructor
    · rintro ⟨_ | k, h⟩
      · exact Nat.lt_add_right _ (cons_zero.1 h)
      · obtain ⟨ha, h⟩ := cons_succ.1 h
        have := ih.1 ⟨k, h⟩
        omega
    · intro h
      rcases Nat.lt_or_ge x a with ha | ha
      · exact ⟨0, cons_zero.2 ha⟩
      · obtain ⟨k, hk⟩ := ih.2 (show x - a < sizes.sum by omega)
        exact ⟨k + 1, cons_succ.2 ⟨ha, hk⟩⟩

/-- **And in one interval only.** -/
theorem unique {j : ℕ} (h : Lands sizes x k) (hj : Lands sizes x j) : j = k := by
  induction sizes generalizing x k j with
  | nil => exact absurd h not_nil
  | cons a sizes ih =>
    cases k with
    | zero =>
      cases j with
      | zero => rfl
      | succ j =>
        have h₁ := cons_zero.1 h
        have h₂ := (cons_succ.1 hj).1
        omega
    | succ k =>
      cases j with
      | zero =>
        have h₁ := cons_zero.1 hj
        have h₂ := (cons_succ.1 h).1
        omega
      | succ j => rw [ih (cons_succ.1 h).2 (cons_succ.1 hj).2]

end Lands

end Lib
end Dwarfpp
