/-
# Evaluating a location list

The constructor of `expr::evaluator` that takes a location list (`src/expr.cpp`):
it evaluates the first expression of the list whose interval has the address,
relative to the base address that the entries before it select.  On a list whose
entries are all plain intervals this is the first of them that has the address
(`selectLocExpr_eq_find`).
-/

import Dwarfpp.Expr.Evaluator
import Dwarfpp.Lib.Run

namespace Dwarfpp
namespace Expr

open Lib

namespace LocExpr

variable (e : LocExpr)

/-- A "base address selection entry". -/
def IsBaseSelection : Prop := e.lopc = 0xffffffff ∨ e.lopc = BitVec.allOnes 64

/-- Whether an entry is for an address, relative to a base. -/
def AppliesAt (base vaddr : BitVec 64) : Prop :=
  (e.lopc = 0 ∧ e.hipc = BitVec.allOnes 64) ∨ (e.lopc = 0 ∧ e.hipc = 0) ∨
    (e.lopc + base ≤ vaddr ∧ vaddr < e.hipc + base)

instance : Decidable e.IsBaseSelection := inferInstanceAs (Decidable (_ ∨ _))

instance (base vaddr : BitVec 64) : Decidable (e.AppliesAt base vaddr) :=
  inferInstanceAs (Decidable (_ ∨ _))

/-- The interval of an entry has the address. -/
def Covers (x : BitVec 64) : Prop := e.lopc ≤ x ∧ x < e.hipc

instance (x : BitVec 64) : Decidable (e.Covers x) := inferInstanceAs (Decidable (_ ∧ _))

end LocExpr

/-- The search through the list, with `current_vaddr_base`. -/
def selectLocExpr (vaddr : BitVec 64) : BitVec 64 → List LocExpr → Option LocExpr
  | _, [] => none
  | base, e :: l =>
    if e.IsBaseSelection then selectLocExpr vaddr e.hipc l
    else if e.AppliesAt base vaddr then some e
    else selectLocExpr vaddr base l

/-- The sanity check of the evaluator. -/
def SaneVaddr (vaddr : BitVec 64) : Prop :=
  vaddr < 0x8000000000 ∨ vaddr = 0xffffffff ∨ vaddr = BitVec.allOnes 64

instance (vaddr : BitVec 64) : Decidable (SaneVaddr vaddr) :=
  inferInstanceAs (Decidable (_ ∨ _))

/-- `evaluator(loclist, vaddr, spec, p_regs, frame_base, initial_stack)`. -/
def loclistEvaluator (ctx : EvalContext) (loclist : List LocExpr) (vaddr : BitVec 64)
    (initialStack : List (BitVec 64)) : Except Fault Evaluator := do
  assert (SaneVaddr vaddr)
  match selectLocExpr vaddr 0 loclist with
  | some e => evaluator ctx e.instrs initialStack
  | none => throw .noEntry

/-- **Among plain intervals the search finds the first that has the address.** -/
theorem selectLocExpr_eq_find {vaddr : BitVec 64} {l : List LocExpr}
    (hplain : ∀ e ∈ l, ¬e.IsBaseSelection)
    (hall : ∀ e ∈ l, e.AppliesAt 0 vaddr ↔ e.Covers vaddr) :
    selectLocExpr vaddr 0 l = l.find? fun e => e.Covers vaddr := by
  induction l with
  | nil => rfl
  | cons e l ih =>
    rw [List.forall_mem_cons] at hplain hall
    rw [selectLocExpr, if_neg hplain.1, List.find?_cons, ih hplain.2 hall.2]
    by_cases h : e.Covers vaddr
    · rw [if_pos (hall.1.2 h), decide_eq_true h]
    · rw [if_neg (fun happlies => h (hall.1.1 happlies)), decide_eq_false h]

/-- The evaluator depends on the check and on the operations that are selected. -/
theorem loclistEvaluator_congr {ctx : EvalContext} {l l' : List LocExpr} {vaddr vaddr' : BitVec 64}
    {initialStack : List (BitVec 64)} (hcheck : SaneVaddr vaddr ↔ SaneVaddr vaddr')
    (hselect : SaneVaddr vaddr → (selectLocExpr vaddr 0 l).map LocExpr.instrs =
      (selectLocExpr vaddr' 0 l').map LocExpr.instrs) :
    loclistEvaluator ctx l vaddr initialStack = loclistEvaluator ctx l' vaddr' initialStack := by
  rw [loclistEvaluator, loclistEvaluator]
  by_cases hsane : SaneVaddr vaddr
  · rw [assert_ok hsane, assert_ok (hcheck.1 hsane), ok_bind, ok_bind]
    have hinstrs := hselect hsane
    cases hfound : selectLocExpr vaddr 0 l with
    | none =>
      rw [hfound] at hinstrs
      rw [Option.map_eq_none_iff.1 hinstrs.symm]
    | some e =>
      rw [hfound] at hinstrs
      obtain ⟨e', he', heq⟩ := Option.map_eq_some_iff.1 hinstrs.symm
      rw [he']
      show evaluator ctx e.instrs initialStack = evaluator ctx e'.instrs initialStack
      rw [heq]
  · rw [assert_error hsane, assert_error fun hsane' => hsane (hcheck.2 hsane')]
    rfl

end Expr
end Dwarfpp
