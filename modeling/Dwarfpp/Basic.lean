/-
# How a computation of the library ends badly

Everything the library computes either returns a value or ends in one of the
ways below: a failed `assert`, one of its exceptions, or an operation that C++
leaves undefined.  Loops are modelled with a bound on their steps and end in
`outOfSteps` when it is reached; the results say when that cannot happen.
-/

import Mathlib
import Dwarfpp.Lib.Run

namespace Dwarfpp

/-- The ways a modelled function fails to return. -/
inductive Fault
  | assertFailed
  | undefinedBehaviour
  | noEntry
  | notSupported
  | outOfSteps
  deriving DecidableEq, Repr

/-- `assert(p)`. -/
def assert (p : Prop) [Decidable p] : Except Fault Unit :=
  if p then .ok () else .error .assertFailed

@[simp] theorem assert_ok {p : Prop} [Decidable p] (h : p) : assert p = .ok () := if_pos h

@[simp] theorem assert_error {p : Prop} [Decidable p] (h : ¬p) :
    assert p = .error .assertFailed := if_neg h

theorem assert_eq_ok {p : Prop} [Decidable p] {u : Unit} : assert p = .ok u ↔ p := by
  unfold assert
  split_ifs with h <;> simp [h]

end Dwarfpp
