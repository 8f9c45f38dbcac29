/-
# The expression evaluator

`expr::evaluator` of `include/dwarfpp/expr.hpp` and `src/expr.cpp`, with the
operations of `dwarf_expr_computed_ops` (`include/dwarfpp/spec.hpp`) expanded as
the preprocessor expands them.  The stack is a list with its top first.
-/

import Mathlib
import Dwarfpp.Basic
import Dwarfpp.Expr.Opcodes

namespace Dwarfpp
namespace Expr

open Lib

/-- `tos_state_t`. -/
inductive TosState
  | address
  | namedRegister
  | value
  | implicitPointer
  deriving DecidableEq, Repr

/-- The bit of a state in a set of wanted states. -/
def TosState.bit : TosState → ℕ
  | .address => 1
  | .namedRegister => 2
  | .value => 4
  | .implicitPointer => 8

/-- What an operation changes: `m_stack`, `m_tos_state` and `implicit_pointer`. -/
structure EvalState where
  stack : List (BitVec 64)
  tosState : TosState
  implicitPointer : Option (BitVec 64 × BitVec 64)
  deriving DecidableEq, Repr

/-- What the caller hands the evaluator: `p_regs` and `frame_base`. -/
structure EvalContext where
  regs : Option (ℤ → BitVec 64)
  frameBase : Option (BitVec 64)

namespace EvalState

variable (st : EvalState)

/-- `morestack(1)`. -/
def morestack : EvalState := { st with stack := 0 :: st.stack, tosState := .address }

/-- `PUSH(x)`: `morestack(1); stk[0] = x`. -/
def push (x : BitVec 64) : EvalState := { st with stack := x :: st.stack, tosState := .address }

/-- `stk[idx]`, the index an `unsigned`. -/
def index (idx : BitVec 64) : Except Fault (BitVec 64) :=
  match st.stack[(idx.setWidth 32).toNat]? with
  | some x => .ok x
  | none => .error .assertFailed

/-- An operation that assigns to the top of the stack a function of it. -/
def unary (f : BitVec 64 → Except Fault (BitVec 64)) : Except Fault EvalState :=
  match st.stack with
  | x :: rest => do
    let y ← f x
    return { st with stack := y :: rest }
  | [] => .error .assertFailed

/-- An operation that starts with `POP(arg1)` and then assigns to the new top of the stack a
function of it and of `arg1`. -/
def binary (f : BitVec 64 → BitVec 64 → Except Fault (BitVec 64)) : Except Fault EvalState :=
  match st.stack with
  | arg1 :: arg2 :: rest => do
    let y ← f arg1 arg2
    return { st with stack := y :: rest, tosState := .address }
  | _ => .error .assertFailed

end EvalState

/-- The least `Dwarf_Signed`. -/
def minSigned : BitVec 64 := BitVec.intMin 64

/-- `(tmp < 0) ? -tmp : tmp`. -/
def absOp (x : BitVec 64) : Except Fault (BitVec 64) :=
  if x.toInt < 0 then if x = minSigned then .error .undefinedBehaviour else .ok (-x) else .ok x

/-- A signed division or remainder, undefined for the divisor zero and when the quotient
overflows. -/
def divOp (f : BitVec 64 → BitVec 64 → BitVec 64) (arg1 arg2 : BitVec 64) :
    Except Fault (BitVec 64) :=
  if arg1 = 0 ∨ (arg2 = minSigned ∧ arg1 = -1) then .error .undefinedBehaviour
  else .ok (f arg2 arg1)

/-- A shift, undefined from the width of the operand on. -/
def shiftOp (f : BitVec 64 → ℕ → BitVec 64) (arg1 arg2 : BitVec 64) : Except Fault (BitVec 64) :=
  if arg1.toNat < 64 then .ok (f arg2 arg1.toNat) else .error .undefinedBehaviour

/-- A comparison of two `Dwarf_Signed`. -/
def compareOp (p : ℤ → ℤ → Bool) (arg1 arg2 : BitVec 64) : Except Fault (BitVec 64) :=
  .ok (if p arg2.toInt arg1.toInt then 1 else 0)

/-- `REGS(n)`. -/
def EvalContext.reg (ctx : EvalContext) (n : ℤ) : Except Fault (BitVec 64) :=
  match ctx.regs with
  | some regs => .ok (regs n)
  | none => .error .noEntry

/-- `*frame_base`, or `goto logic_error`. -/
def EvalContext.fbreg (ctx : EvalContext) : Except Fault (BitVec 64) :=
  match ctx.frameBase with
  | some b => .ok b
  | none => .error .assertFailed

/-- One case of the `switch`, `DW_OP_piece` apart. -/
def evalOp (ctx : EvalContext) (i : ExprInstr) (st : EvalState) : DwOp → Except Fault EvalState
  | .addr | .const1u | .const1s | .const2u | .const2s | .const4u | .const4s | .const8u | .const8s
  | .constu | .consts => .ok (st.push i.lrNumber)
  | .deref | .derefSize => .error .noEntry
  | .xderef | .xderefSize => if st.stack = [] then .error .assertFailed else .error .noEntry
  | .dup => do
    let tmp ← st.index 0
    return st.push tmp
  | .drop => do
    let _ ← st.index 0
    return { st with stack := st.stack.tail, tosState := .address }
  | .over => do
    let tmp ← st.index 1
    return st.push tmp
  | .pick => do
    let tmp ← st.index i.lrNumber
    return st.push tmp
  | .swap =>
    match st.stack with
    | x :: y :: rest => .ok { st with stack := y :: x :: rest }
    | _ => .error .assertFailed
  | .rot =>
    match st.stack with
    | x :: y :: z :: rest => .ok { st with stack := y :: z :: x :: rest }
    | _ => .error .assertFailed
  | .abs => st.unary absOp
  | .neg => st.unary fun x => .ok (-x)
  | .not => st.unary fun x => .ok (~~~x)
  | .plusUconst => st.unary fun x => .ok (x + i.lrNumber)
  | .and => st.binary fun arg1 arg2 => .ok (arg1 &&& arg2)
  | .or => st.binary fun arg1 arg2 => .ok (arg1 ||| arg2)
  | .xor => st.binary fun arg1 arg2 => .ok (arg1 ^^^ arg2)
  | .plus => st.binary fun arg1 arg2 => .ok (arg1 + arg2)
  | .minus => st.binary fun arg1 arg2 => .ok (arg2 - arg1)
  | .mul => st.binary fun arg1 arg2 => .ok (arg1 * arg2)
  | .div => st.binary (divOp BitVec.sdiv)
  | .mod => st.binary (divOp BitVec.srem)
  | .shl => st.binary (shiftOp fun x n => x <<< n)
  | .shr => st.binary (shiftOp fun x n => x >>> n)
  -- The operand is made unsigned before it is shifted, not after.
  | .shra => st.binary (shiftOp fun x n => x >>> n)
  | .eq => st.binary (compareOp fun x y => x = y)
  | .ge => st.binary (compareOp fun x y => y ≤ x)
  | .gt => st.binary (compareOp fun x y => y < x)
  | .le => st.binary (compareOp fun x y => x ≤ y)
  | .lt => st.binary (compareOp fun x y => x < y)
  | .ne => st.binary (compareOp fun x y => x ≠ y)
  -- `morestack(1)` and then `PUSH`, which grows the stack once more.
  | .lit n => .ok (st.morestack.push (BitVec.ofNat 64 n))
  | .breg n => do
    let r ← ctx.reg n
    return st.morestack.push (r + i.lrNumber)
  | .bregx => do
    let r ← ctx.reg (i.lrNumber.setWidth 32).toInt
    return st.morestack.push (r + i.lrNumber2)
  | .nop => .ok st
  | .fbreg => do
    let b ← ctx.fbreg
    return { st with stack := (b + i.lrNumber) :: st.stack }
  | .callFrameCfa => do
    let b ← ctx.fbreg
    return { st with stack := b :: st.stack }
  | .reg _ | .regx => .ok { st with tosState := .namedRegister }
  | .stackValue => .ok { st with tosState := .value }
  | .gnuImplicitPointer =>
    .ok { st with tosState := .implicitPointer, implicitPointer := some (i.lrNumber, i.lrNumber2) }
  | .piece => .ok st

/-- The body of the `while` loop: an unrecognised opcode is not supported. -/
def evalInstr (ctx : EvalContext) (st : EvalState) (i : ExprInstr) : Except Fault EvalState :=
  match i.op with
  | some op => evalOp ctx i st op
  | none => .error .notSupported

/-- The `while` loop, over the instructions from `i` on.  It ends at the last of them or after a
`DW_OP_piece`, and returns what is left. -/
def evalLoop (ctx : EvalContext) : List ExprInstr → EvalState →
    Except Fault (EvalState × List ExprInstr)
  | [], st => .ok (st, [])
  | i :: rest, st =>
    if i.op = some .piece then .ok (st, rest)
    else do
      let st ← evalInstr ctx st i
      evalLoop ctx rest st

/-- `evaluator`: the expression, what its iterator `i` has still to visit, and the state. -/
structure Evaluator where
  expr : List ExprInstr
  rest : List ExprInstr
  st : EvalState
  deriving DecidableEq, Repr

/-- `eval()`.  When it resumes after a `DW_OP_piece` it advances once more and clears the
stack. -/
def Evaluator.eval (ctx : EvalContext) (e : Evaluator) : Except Fault Evaluator := do
  let (st, rest) ←
    if e.rest ≠ [] ∧ e.rest.length ≠ e.expr.length then
      evalLoop ctx e.rest.tail { e.st with stack := [] }
    else evalLoop ctx e.rest e.st
  return { e with rest := rest, st := st }

/-- The evaluator before its first operation. -/
def EvalState.start (initialStack : List (BitVec 64)) : EvalState := ⟨initialStack, .address, none⟩

/-- `evaluator(loc_desc, spec, regs, frame_base, initial_stack)`. -/
def evaluator (ctx : EvalContext) (locDesc : List ExprInstr) (initialStack : List (BitVec 64)) :
    Except Fault Evaluator :=
  Evaluator.eval ctx ⟨locDesc, locDesc, .start initialStack⟩

/-- `tos(wanted_states)`. -/
def Evaluator.tos (e : Evaluator) (wantedStates : ℕ := 15) : Except Fault (BitVec 64) :=
  if wantedStates &&& e.st.tosState.bit = 0 then .error .noEntry
  else if e.st.tosState = .implicitPointer then .ok 0
  else match e.st.stack with
    | x :: _ => .ok x
    | [] => .error .undefinedBehaviour

/-- `finished()`. -/
def Evaluator.finished (e : Evaluator) : Bool := e.rest.isEmpty

/-- `tos()` wants every state. -/
theorem Evaluator.tos_eq (e : Evaluator) :
    e.tos = if e.st.tosState = .implicitPointer then .ok 0
      else match e.st.stack with
        | x :: _ => .ok x
        | [] => .error .undefinedBehaviour := by
  have hbit : 15 &&& e.st.tosState.bit ≠ 0 := by cases e.st.tosState <;> decide
  rw [Evaluator.tos, if_neg hbit]

theorem evalInstr_of_op {i : ExprInstr} {op : DwOp} (h : i.op = some op) (ctx : EvalContext)
    (st : EvalState) : evalInstr ctx st i = evalOp ctx i st op := by
  rw [evalInstr, h]

/-- **Without pieces, the loop runs the operations one after the other.** -/
theorem evalLoop_eq_foldlM (ctx : EvalContext) {l : List ExprInstr}
    (hl : ∀ i ∈ l, i.op ≠ some .piece) (st : EvalState) :
    evalLoop ctx l st = (do let st ← l.foldlM (evalInstr ctx) st; return (st, [])) := by
  induction l generalizing st with
  | nil => rfl
  | cons i l ih =>
    rw [evalLoop, if_neg (hl i List.mem_cons_self), List.foldlM_cons]
    cases evalInstr ctx st i with
    | error e => rfl
    | ok st₁ => exact ih (fun j hj => hl j (List.mem_cons_of_mem _ hj)) st₁

/-- A fresh evaluator runs its whole expression. -/
theorem evaluator_eq (ctx : EvalContext) (l : List ExprInstr) (s : List (BitVec 64)) :
    evaluator ctx l s =
      (do let r ← evalLoop ctx l (.start s); return ⟨l, r.2, r.1⟩) := by
  rw [evaluator, Evaluator.eval, if_neg]
  rintro ⟨-, h⟩
  exact h rfl

end Expr
end Dwarfpp
