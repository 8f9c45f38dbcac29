/-
# The two ways to select an entry

`loclist::loc_for_vaddr` (`src/expr.cpp`) beside the selection that the evaluator
makes on a location list.  The one takes intervals as they stand; the other knows
the entries for all addresses, adds the base that a base address selection entry
sets, and passes these entries over.  They agree just if no entry up to the first
that either takes is read differently (`selectionsAgree_iff`).
-/

import Dwarfpp.Expr.LoclistEvaluator

namespace Dwarfpp
namespace Expr

open Lib

/-- `loc_for_vaddr(vaddr)`. -/
def locForVaddr (vaddr : BitVec 64) : List LocExpr → Except Fault LocExpr
  | [] => .error .noEntry
  | e :: l => if e.Covers vaddr then .ok e else locForVaddr vaddr l

/-- The expression that `evaluator(loclist, vaddr, ...)` evaluates. -/
def evaluatedExpr (vaddr : BitVec 64) (loclist : List LocExpr) : Except Fault LocExpr := do
  assert (SaneVaddr vaddr)
  match selectLocExpr vaddr 0 loclist with
  | some e => return e
  | none => throw .noEntry

/-- The first entry that applies, of those to which the list comes with the base, is `e`. -/
def NextApplied (vaddr : BitVec 64) (e : LocExpr) : BitVec 64 → List LocExpr → Prop
  | _, [] => False
  | base, e' :: l =>
    if e'.IsBaseSelection then NextApplied vaddr e e'.hipc l
    else if e'.AppliesAt base vaddr then e' = e
    else NextApplied vaddr e base l

/-- No entry is read differently, up to the first that is taken: a base address selection entry
does not have the address between its two numbers, and another entry applies to the address just
if its interval has it.  Where one that does not apply has it, the next that applies is the same
entry again. -/
def ReadAlike (vaddr : BitVec 64) : BitVec 64 → List LocExpr → Prop
  | _, [] => True
  | base, e :: l =>
    if e.IsBaseSelection then ¬e.Covers vaddr ∧ ReadAlike vaddr e.hipc l
    else if e.AppliesAt base vaddr then e.Covers vaddr
    else if e.Covers vaddr then NextApplied vaddr e base l
    else ReadAlike vaddr base l

section Agreement

variable {vaddr : BitVec 64}

theorem locForVaddr_eq_ok_covers {l : List LocExpr} {e : LocExpr}
    (h : locForVaddr vaddr l = .ok e) : e.Covers vaddr := by
  induction l with
  | nil => exact nomatch h
  | cons e' l ih =>
    rw [locForVaddr] at h
    split_ifs at h with hcovers
    · obtain rfl := Except.ok.inj h
      exact hcovers
    · exact ih h

theorem selectLocExpr_eq_some_iff (e : LocExpr) (base : BitVec 64) (l : List LocExpr) :
    selectLocExpr vaddr base l = some e ↔ NextApplied vaddr e base l := by
  induction l generalizing base with
  | nil => exact iff_of_false (fun h => nomatch h) id
  | cons e' l ih =>
    rw [selectLocExpr, NextApplied]
    split_ifs with hbase happlies
    · exact ih e'.hipc
    · exact Option.some_inj
    · exact ih base

theorem not_isBaseSelection_of_select {base : BitVec 64} {l : List LocExpr} {e : LocExpr}
    (h : selectLocExpr vaddr base l = some e) : ¬e.IsBaseSelection := by
  induction l generalizing base with
  | nil => exact nomatch h
  | cons e' l ih =>
    rw [selectLocExpr] at h
    split_ifs at h with hbase happlies
    · exact ih h
    · obtain rfl := Option.some.inj h
      exact hbase
    · exact ih h

/-- What the evaluator selects, with its exception where there is nothing. -/
def selected (vaddr base : BitVec 64) (l : List LocExpr) : Except Fault LocExpr :=
  match selectLocExpr vaddr base l with
  | some e => .ok e
  | none => .error .noEntry

theorem selected_eq_ok_iff {base : BitVec 64} {l : List LocExpr} {e : LocExpr} :
    selected vaddr base l = .ok e ↔ selectLocExpr vaddr base l = some e := by
  rw [selected]
  cases selectLocExpr vaddr base l with
  | none => simp
  | some e' => simp

/-- **The step over one entry**, for any base. -/
theorem selected_eq_locForVaddr_iff (base : BitVec 64) (l : List LocExpr) :
    selected vaddr base l = locForVaddr vaddr l ↔ ReadAlike vaddr base l := by
  induction l generalizing base with
  | nil => exact iff_of_true rfl trivial
  | cons e l ih =>
    by_cases hbase : e.IsBaseSelection
    · rw [ReadAlike, if_pos hbase, selected, selectLocExpr, if_pos hbase, ← selected,
        locForVaddr]
      by_cases hcovers : e.Covers vaddr
      -- a marker is never what the evaluator selects
      · rw [if_pos hcovers, selected_eq_ok_iff]
        exact iff_of_false (fun h => not_isBaseSelection_of_select h hbase) fun h => h.1 hcovers
      · rw [if_neg hcovers, ih]
        exact (and_iff_right hcovers).symm
    · rw [ReadAlike, if_neg hbase, selected, selectLocExpr, if_neg hbase]
      by_cases happlies : e.AppliesAt base vaddr
      · rw [if_pos happlies, if_pos happlies]
        constructor
        · exact fun h => locForVaddr_eq_ok_covers h.symm
        · intro hcovers
          rw [locForVaddr, if_pos hcovers]
      · rw [if_neg happlies, if_neg happlies, ← selected, locForVaddr]
        by_cases hcovers : e.Covers vaddr
        · rw [if_pos hcovers, if_pos hcovers, selected_eq_ok_iff, selectLocExpr_eq_some_iff]
        · rw [if_neg hcovers, if_neg hcovers]
          exact ih base

/-- **The evaluator evaluates what `loc_for_vaddr` returns, and both throw `No_entry` on the same
lists, just if no entry is read differently.** -/
theorem selectionsAgree_iff (hsane : SaneVaddr vaddr) (l : List LocExpr) :
    evaluatedExpr vaddr l = locForVaddr vaddr l ↔ ReadAlike vaddr 0 l := by
  rw [← selected_eq_locForVaddr_iff, evaluatedExpr, assert_ok hsane, ok_bind]
  rfl

end Agreement

theorem selectionsAgree_oneInterval :
    evaluatedExpr 0x1000 [⟨[], 0x1010, 0x1000⟩] = locForVaddr 0x1000 [⟨[], 0x1010, 0x1000⟩] ↔
      ReadAlike 0x1000 0 [⟨[], 0x1010, 0x1000⟩] :=
  selectionsAgree_iff (.inl (by decide)) _

/-- An expression for all addresses is one that `loc_for_vaddr` finds at none. -/
theorem not_selectionsAgree : ¬∀ vaddr l, SaneVaddr vaddr →
    evaluatedExpr vaddr l = locForVaddr vaddr l := by
  intro h
  have hall := h 0x1000 [default] (.inl (by decide))
  cases hall

end Expr
end Dwarfpp
