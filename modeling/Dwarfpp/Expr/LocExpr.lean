/-
# Location expressions

`expr_instr` (libdwarf's `Dwarf_Loc`) and `loc_expr` of
`include/dwarfpp/expr.hpp`: a sequence of operations, each with its opcode, two
operands and the offset of its encoding, and the interval of addresses the
expression is for.
-/

import Mathlib

namespace Dwarfpp
namespace Expr

/-- `expr_instr`. -/
structure ExprInstr where
  lrAtom : BitVec 8
  lrNumber : BitVec 64
  lrNumber2 : BitVec 64
  lrOffset : BitVec 64
  deriving DecidableEq, Repr, Inhabited

/-- `loc_expr`.  The default is the empty expression, for all addresses. -/
structure LocExpr where
  instrs : List ExprInstr
  hipc : BitVec 64
  lopc : BitVec 64
  deriving DecidableEq, Repr, Inhabited

end Expr
end Dwarfpp
