/-
# Register rules and rows

`FrameSection::register_def` and `instrs_results` of
`include/dwarfpp/frame.hpp`.  A `register_def` is a kind with one field for each
kind of rule: writing a rule sets the kind and its own field and leaves the
others as they were.  A row maps register numbers to definitions, with the CFA
under the number `DW_FRAME_CFA_COL3`.
-/

import Mathlib
import Dwarfpp.Expr.LocExpr
import Dwarfpp.Lib.IntervalMap
import Dwarfpp.Lib.OrderedMap

namespace Dwarfpp
namespace Frame

open Lib Dwarfpp.Expr

/-- `register_def::kind`. -/
inductive Kind
  | indeterminate | undefined | sameValue | savedAtOffsetFromCfa | valIsOffsetFromCfa | register
  | savedAtExpr | valOfExpr
  deriving DecidableEq, Repr, Inhabited

/-- `register_def::value_t`, a struct: all fields are there at once. -/
structure DefValue where
  mUndefined : ℤ
  mSameValue : ℤ
  mSavedAtOffsetFromCfa : ℤ
  mValIsOffsetFromCfa : ℤ
  mRegisterPlusOffset : ℤ × ℤ
  mSavedAtExpr : LocExpr
  mValOfExpr : LocExpr
  deriving DecidableEq, Repr, Inhabited

/-- `register_def`.  The default has kind `INDETERMINATE` and zero fields. -/
structure RegisterDef where
  k : Kind
  value : DefValue
  deriving DecidableEq, Repr, Inhabited

namespace RegisterDef

/-- `undefined_w()`. -/
def undefinedW (d : RegisterDef) : RegisterDef := { d with k := .undefined }

/-- `same_value_w()`. -/
def sameValueW (d : RegisterDef) : RegisterDef := { d with k := .sameValue }

/-- `saved_at_offset_from_cfa_w() = v`. -/
def savedAtOffsetFromCfaW (d : RegisterDef) (v : ℤ) : RegisterDef :=
  { k := .savedAtOffsetFromCfa, value := { d.value with mSavedAtOffsetFromCfa := v } }

/-- `val_is_offset_from_cfa_w() = v`. -/
def valIsOffsetFromCfaW (d : RegisterDef) (v : ℤ) : RegisterDef :=
  { k := .valIsOffsetFromCfa, value := { d.value with mValIsOffsetFromCfa := v } }

/-- `register_plus_offset_w() = v`. -/
def registerPlusOffsetW (d : RegisterDef) (v : ℤ × ℤ) : RegisterDef :=
  { k := .register, value := { d.value with mRegisterPlusOffset := v } }

/-- `saved_at_expr_w() = e`. -/
def savedAtExprW (d : RegisterDef) (e : LocExpr) : RegisterDef :=
  { k := .savedAtExpr, value := { d.value with mSavedAtExpr := e } }

/-- `val_of_expr_w() = e`. -/
def valOfExprW (d : RegisterDef) (e : LocExpr) : RegisterDef :=
  { k := .valOfExpr, value := { d.value with mValOfExpr := e } }

end RegisterDef

/-- `std::map<int, register_def>`. -/
abbrev Row := OrderedMap ℤ RegisterDef

/-- `current_row_defs[reg]`: a missing entry is the default. -/
def Row.get (row : Row) (reg : ℤ) : RegisterDef := (row.find reg).getD default

/-- `instrs_results`. -/
structure InstrsResults where
  rows : IntervalMap ℕ (ℤ × RegisterDef)
  unfinishedRow : Row
  unfinishedRowAddr : BitVec 64

/-- `add_unfinished_row`. -/
def InstrsResults.addUnfinishedRow (r : InstrsResults) (highPc : BitVec 64) : InstrsResults where
  rows := r.rows.add r.unfinishedRowAddr.toNat highPc.toNat r.unfinishedRow.entries
  unfinishedRow := .empty
  unfinishedRowAddr := BitVec.allOnes 64

/-! ### The rule of a definition -/

/-- The rule a definition stands for: its kind with the field of that kind. -/
inductive Rule
  | undefined
  | sameValue
  | offset (off : ℤ)
  | valOffset (off : ℤ)
  | register (reg off : ℤ)
  | expression (e : LocExpr)
  | valExpression (e : LocExpr)
  deriving DecidableEq, Repr

/-- `none` for `INDETERMINATE`. -/
def RegisterDef.rule (d : RegisterDef) : Option Rule :=
  match d.k with
  | .indeterminate => none
  | .undefined => some .undefined
  | .sameValue => some .sameValue
  | .savedAtOffsetFromCfa => some (.offset d.value.mSavedAtOffsetFromCfa)
  | .valIsOffsetFromCfa => some (.valOffset d.value.mValIsOffsetFromCfa)
  | .register => some (.register d.value.mRegisterPlusOffset.1 d.value.mRegisterPlusOffset.2)
  | .savedAtExpr => some (.expression d.value.mSavedAtExpr)
  | .valOfExpr => some (.valExpression d.value.mValOfExpr)

/-- The rule found under a register number in the values of a row map: a register
without an entry and one marked `INDETERMINATE` have none. -/
def ruleIn (entries : List (ℤ × RegisterDef)) (reg : ℤ) : Option Rule :=
  (findEntry reg entries).bind RegisterDef.rule

section Rules

variable (d : RegisterDef)

@[simp] theorem rule_default : (default : RegisterDef).rule = none := rfl

@[simp] theorem rule_undefinedW : d.undefinedW.rule = some .undefined := rfl

@[simp] theorem rule_sameValueW : d.sameValueW.rule = some .sameValue := rfl

@[simp] theorem rule_savedAtOffsetFromCfaW (v : ℤ) :
    (d.savedAtOffsetFromCfaW v).rule = some (.offset v) := rfl

@[simp] theorem rule_valIsOffsetFromCfaW (v : ℤ) :
    (d.valIsOffsetFromCfaW v).rule = some (.valOffset v) := rfl

@[simp] theorem rule_registerPlusOffsetW (v : ℤ × ℤ) :
    (d.registerPlusOffsetW v).rule = some (.register v.1 v.2) := rfl

@[simp] theorem rule_savedAtExprW (e : LocExpr) :
    (d.savedAtExprW e).rule = some (.expression e) := rfl

@[simp] theorem rule_valOfExprW (e : LocExpr) :
    (d.valOfExprW e).rule = some (.valExpression e) := rfl

end Rules

/-- Setting one register changes its rule and no other. -/
theorem ruleIn_insert (row : Row) (reg j : ℤ) (d : RegisterDef) :
    ruleIn (row.insert reg d).entries j =
      if j = reg then d.rule else ruleIn row.entries j := by
  have h := OrderedMap.find_insert row j reg d
  unfold OrderedMap.find at h
  unfold ruleIn
  rw [h]
  split_ifs <;> rfl

end Frame
end Dwarfpp
