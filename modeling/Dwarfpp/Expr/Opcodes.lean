/-
# The operations of location expressions

The opcodes that `src/expr.cpp` gives a case of its own or expands from
`dwarf_expr_computed_ops` (`include/dwarfpp/spec.hpp`), with their `DW_OP_*`
numbers.  The evaluator throws `Not_supported` on every other one.
-/

import Dwarfpp.Expr.LocExpr

namespace Dwarfpp
namespace Expr

/-- There are registers and literals to be numbered. -/
instance neZeroThirtyTwo : NeZero 32 := ⟨by decide⟩

/-- The operations the evaluator has a case for. -/
inductive DwOp
  | addr | deref | const1u | const1s | const2u | const2s | const4u | const4s | const8u | const8s
  | constu | consts | dup | drop | over | pick | swap | rot | xderef | abs | and | div | minus
  | mod | mul | neg | not | or | plus | plusUconst | shl | shr | shra | xor
  | eq | ge | gt | le | lt | ne
  | lit (n : Fin 32)
  | reg (n : Fin 32)
  | breg (n : Fin 32)
  | regx | fbreg | bregx | piece | derefSize | xderefSize | nop | callFrameCfa | stackValue
  | gnuImplicitPointer
  deriving DecidableEq, Repr

/-- The number of an opcode. -/
def DwOp.atom : DwOp → BitVec 8
  | .addr => 0x03 | .deref => 0x06
  | .const1u => 0x08 | .const1s => 0x09 | .const2u => 0x0a | .const2s => 0x0b
  | .const4u => 0x0c | .const4s => 0x0d | .const8u => 0x0e | .const8s => 0x0f
  | .constu => 0x10 | .consts => 0x11
  | .dup => 0x12 | .drop => 0x13 | .over => 0x14 | .pick => 0x15 | .swap => 0x16 | .rot => 0x17
  | .xderef => 0x18 | .abs => 0x19 | .and => 0x1a | .div => 0x1b | .minus => 0x1c | .mod => 0x1d
  | .mul => 0x1e | .neg => 0x1f | .not => 0x20 | .or => 0x21 | .plus => 0x22
  | .plusUconst => 0x23 | .shl => 0x24 | .shr => 0x25 | .shra => 0x26 | .xor => 0x27
  | .eq => 0x29 | .ge => 0x2a | .gt => 0x2b | .le => 0x2c | .lt => 0x2d | .ne => 0x2e
  | .lit n => BitVec.ofNat 8 (0x30 + n)
  | .reg n => BitVec.ofNat 8 (0x50 + n)
  | .breg n => BitVec.ofNat 8 (0x70 + n)
  | .regx => 0x90 | .fbreg => 0x91 | .bregx => 0x92 | .piece => 0x93
  | .derefSize => 0x94 | .xderefSize => 0x95 | .nop => 0x96
  | .callFrameCfa => 0x9c | .stackValue => 0x9f | .gnuImplicitPointer => 0xf2

/-- The opcodes that are not one of a family of thirty-two. -/
def DwOp.singles : List DwOp :=
  [.addr, .deref, .const1u, .const1s, .const2u, .const2s, .const4u, .const4s, .const8u, .const8s,
    .constu, .consts, .dup, .drop, .over, .pick, .swap, .rot, .xderef, .abs, .and, .div, .minus,
    .mod, .mul, .neg, .not, .or, .plus, .plusUconst, .shl, .shr, .shra, .xor,
    .eq, .ge, .gt, .le, .lt, .ne, .regx, .fbreg, .bregx, .piece, .derefSize, .xderefSize, .nop,
    .callFrameCfa, .stackValue, .gnuImplicitPointer]

/-- The operation an `lr_atom` stands for. -/
def DwOp.ofAtom (a : BitVec 8) : Option DwOp :=
  if 0x30 ≤ a.toNat ∧ a.toNat < 0x50 then some (.lit (Fin.ofNat 32 (a.toNat - 0x30)))
  else if 0x50 ≤ a.toNat ∧ a.toNat < 0x70 then some (.reg (Fin.ofNat 32 (a.toNat - 0x50)))
  else if 0x70 ≤ a.toNat ∧ a.toNat < 0x90 then some (.breg (Fin.ofNat 32 (a.toNat - 0x70)))
  else DwOp.singles.find? (·.atom = a)

/-- **Every opcode is recognised by its number.** -/
@[simp] theorem DwOp.ofAtom_atom (op : DwOp) : DwOp.ofAtom op.atom = some op := by
  cases op with
  | lit n => revert n; decide
  | reg n => revert n; decide
  | breg n => revert n; decide
  | _ => decide

/-- The operation of an instruction, if the evaluator knows it. -/
def ExprInstr.op (i : ExprInstr) : Option DwOp := DwOp.ofAtom i.lrAtom

/-- An instruction with the given opcode and operands. -/
def DwOp.instr (op : DwOp) (operand1 : BitVec 64 := 0) (operand2 : BitVec 64 := 0) : ExprInstr :=
  ⟨op.atom, operand1, operand2, 0⟩

@[simp] theorem DwOp.instr_op (op : DwOp) (x y : BitVec 64) : (op.instr x y).op = some op :=
  op.ofAtom_atom

end Expr
end Dwarfpp
