/-
# Where the evaluator does not fault

What each operation asks of the stack before it, and when the evaluator and `tos()` of
`include/dwarfpp/expr.hpp` end in nothing but a value or an exception of the library:
just if every operation that is run finds what it asks for, and the run ends with an
entry on the stack or in an implicit pointer (`evaluator_safe_iff`).
-/

import Dwarfpp.Expr.Evaluator

namespace Dwarfpp
namespace Expr

open Lib

/-- The exceptions of the library. -/
def IsException (f : Fault) : Prop := f = .noEntry ∨ f = .notSupported

namespace DwOp

/-- How many entries an operation reads. -/
def operands (i : ExprInstr) : DwOp → ℕ
  | .dup | .drop | .xderef | .xderefSize | .abs | .neg | .not | .plusUconst => 1
  | .over | .swap => 2
  | .rot => 3
  | .pick => (i.lrNumber.setWidth 32).toNat + 1
  | .and | .or | .xor | .plus | .minus | .mul | .div | .mod | .shl | .shr | .shra
  | .eq | .ge | .gt | .le | .lt | .ne => 2
  | _ => 0

/-- An operation is defined on its operands: no negative of the least word, no division by zero, no
quotient that overflows, and no shift by the width or more. -/
def Defined (s : List (BitVec 64)) : DwOp → Prop
  | .abs => s.head? ≠ some minSigned
  | .div | .mod => s.head? ≠ some 0 ∧ ¬(s.head? = some (-1) ∧ s[1]? = some minSigned)
  | .shl | .shr | .shra => ∀ n, s.head? = some n → n.toNat < 64
  | _ => True

/-- An operation reads the frame base. -/
def NeedsFrameBase : DwOp → Prop
  | .fbreg | .callFrameCfa => True
  | _ => False

/-- What an operation asks of the state before it. -/
structure SafeIn (ctx : EvalContext) (i : ExprInstr) (st : EvalState) (op : DwOp) : Prop where
  operands : op.operands i ≤ st.stack.length
  defined : op.Defined st.stack
  frameBase : op.NeedsFrameBase → ctx.frameBase ≠ none

end DwOp

section Operations

variable {ctx : EvalContext} {i : ExprInstr} {st : EvalState} {op : DwOp}

theorem isException_noEntry : IsException .noEntry := .inl rfl

theorem isException_notSupported : IsException .notSupported := .inr rfl

@[simp] theorem not_isException_assertFailed : ¬IsException .assertFailed := by
  rintro (h | h) <;> cases h

@[simp] theorem not_isException_undefinedBehaviour : ¬IsException .undefinedBehaviour := by
  rintro (h | h) <;> cases h

theorem throws_index_iff {n : BitVec 64} {f : BitVec 64 → EvalState} :
    Throws IsException (do let tmp ← st.index n; return f tmp) ↔
      (n.setWidth 32).toNat + 1 ≤ st.stack.length := by
  rw [EvalState.index]
  rcases Nat.lt_or_ge (n.setWidth 32).toNat st.stack.length with h | h
  · rw [List.getElem?_eq_getElem h]
    exact iff_of_true (Throws.ok _) h
  · rw [List.getElem?_eq_none h]
    refine iff_of_false (fun hthrows => ?_) (by omega)
    exact not_isException_assertFailed (hthrows _ rfl)

theorem throws_unary_iff {f : BitVec 64 → Except Fault (BitVec 64)} :
    Throws IsException (st.unary f) ↔
      1 ≤ st.stack.length ∧ ∀ x, st.stack.head? = some x → Throws IsException (f x) := by
  rw [EvalState.unary]
  cases hs : st.stack with
  | nil => simp
  | cons x rest =>
    simp only [throws_bind_iff]
    simp [pure, Except.pure]

theorem throws_binary_iff {f : BitVec 64 → BitVec 64 → Except Fault (BitVec 64)} :
    Throws IsException (st.binary f) ↔ 2 ≤ st.stack.length ∧
      ∀ x y, st.stack.head? = some x → st.stack[1]? = some y → Throws IsException (f x y) := by
  rw [EvalState.binary]
  rcases hs : st.stack with _ | ⟨x, _ | ⟨y, rest⟩⟩
  · simp
  · simp
  · simp only [throws_bind_iff]
    simp [pure, Except.pure]

theorem throws_absOp_iff {x : BitVec 64} : Throws IsException (absOp x) ↔ x ≠ minSigned := by
  rw [absOp]
  split_ifs with hneg hx
  · exact iff_of_false (by simp) (not_not.2 hx)
  · exact iff_of_true (Throws.ok _) hx
  · refine iff_of_true (Throws.ok _) ?_
    rintro rfl
    exact hneg (by decide)

theorem throws_divOp_iff {f : BitVec 64 → BitVec 64 → BitVec 64} {x y : BitVec 64} :
    Throws IsException (divOp f x y) ↔ x ≠ 0 ∧ ¬(y = minSigned ∧ x = -1) := by
  rw [divOp, ← not_or]
  split_ifs with h
  · exact iff_of_false (by simp) (not_not.2 h)
  · exact iff_of_true (Throws.ok _) h

theorem throws_shiftOp_iff {f : BitVec 64 → ℕ → BitVec 64} {x y : BitVec 64} :
    Throws IsException (shiftOp f x y) ↔ x.toNat < 64 := by
  rw [shiftOp]
  split_ifs with h
  · exact iff_of_true (Throws.ok _) h
  · exact iff_of_false (by simp) h

theorem throws_reg (n : ℤ) : Throws IsException (ctx.reg n) := by
  rw [EvalContext.reg]
  cases ctx.regs with
  | some regs => exact Throws.ok _
  | none => exact Throws.error isException_noEntry

theorem throws_fbreg_iff : Throws IsException ctx.fbreg ↔ ctx.frameBase ≠ none := by
  rw [EvalContext.fbreg]
  cases ctx.frameBase with
  | some b => simp
  | none => simp

theorem DwOp.safeIn_iff : op.SafeIn ctx i st ↔ op.operands i ≤ st.stack.length ∧
    op.Defined st.stack ∧ (op.NeedsFrameBase → ctx.frameBase ≠ none) :=
  ⟨fun h => ⟨h.operands, h.defined, h.frameBase⟩, fun ⟨h₁, h₂, h₃⟩ => ⟨h₁, h₂, h₃⟩⟩

/-- An operation that a register alone can stop asks for nothing. -/
theorem throws_pushReg (n : ℤ) (f : BitVec 64 → EvalState) :
    Throws IsException (do let r ← ctx.reg n; return f r) :=
  (throws_reg n).bind fun _ _ => Throws.ok _

theorem throws_pushFrameBase_iff {f : BitVec 64 → EvalState} :
    Throws IsException (do let b ← ctx.fbreg; return f b) ↔ ctx.frameBase ≠ none := by
  rw [throws_bind_iff, throws_fbreg_iff]
  exact and_iff_left fun b _ => Throws.ok _

/-- An operation on two operands that is defined on all of them. -/
theorem throws_total_binary_iff {f : BitVec 64 → BitVec 64 → BitVec 64} :
    Throws IsException (st.binary fun x y => .ok (f x y)) ↔ 2 ≤ st.stack.length := by
  rw [throws_binary_iff]
  exact and_iff_left fun x y _ _ => Throws.ok _

theorem throws_binary_divOp_iff {f : BitVec 64 → BitVec 64 → BitVec 64} :
    Throws IsException (st.binary (divOp f)) ↔ 2 ≤ st.stack.length ∧
      st.stack.head? ≠ some 0 ∧ ¬(st.stack.head? = some (-1) ∧ st.stack[1]? = some minSigned) := by
  rw [throws_binary_iff]
  refine and_congr_right fun hlen => ?_
  obtain ⟨x, y, rest, hs⟩ : ∃ x y rest, st.stack = x :: y :: rest := by
    rcases hs : st.stack with _ | ⟨x, _ | ⟨y, rest⟩⟩
    · simp [hs] at hlen
    · simp [hs] at hlen
    · exact ⟨x, y, rest, rfl⟩
  rw [hs]
  simp [throws_divOp_iff, and_comm]

theorem throws_binary_shiftOp_iff {f : BitVec 64 → ℕ → BitVec 64} :
    Throws IsException (st.binary (shiftOp f)) ↔ 2 ≤ st.stack.length ∧
      ∀ n, st.stack.head? = some n → n.toNat < 64 := by
  rw [throws_binary_iff]
  refine and_congr_right fun hlen => ⟨fun h n hn => ?_, fun h x y hx _ => ?_⟩
  · exact throws_shiftOp_iff.1 (h n (st.stack[1]) hn (List.getElem?_eq_getElem (by omega)))
  · exact throws_shiftOp_iff.2 (h x hx)

/-- **An operation faults just if the state before it lacks what it asks for.** -/
theorem throws_evalOp_iff : Throws IsException (evalOp ctx i st op) ↔ op.SafeIn ctx i st := by
  rw [DwOp.safeIn_iff]
  cases op
  -- The operations that take operands from the stack.
  case dup | drop | «over» | pick =>
    simp only [evalOp, throws_index_iff]
    simp [DwOp.operands, DwOp.Defined, DwOp.NeedsFrameBase]
  case xderef | xderefSize =>
    cases hs : st.stack <;>
      simp [evalOp, hs, DwOp.operands, DwOp.Defined, DwOp.NeedsFrameBase, isException_noEntry]
  case swap | rot =>
    rcases hs : st.stack with _ | ⟨x, _ | ⟨y, _ | ⟨z, rest⟩⟩⟩ <;>
      simp [evalOp, hs, DwOp.operands, DwOp.Defined, DwOp.NeedsFrameBase]
  case abs =>
    simp only [evalOp, throws_unary_iff, throws_absOp_iff]
    simp only [DwOp.operands, DwOp.Defined, DwOp.NeedsFrameBase, false_imp_iff, and_true]
    refine and_congr_right fun _ => ⟨fun h hmin => h _ hmin rfl, fun h x hx hmin => h ?_⟩
    rw [hx, hmin]
  case neg | not | plusUconst =>
    simp [evalOp, throws_unary_iff, DwOp.operands, DwOp.Defined, DwOp.NeedsFrameBase]
  case and | or | xor | plus | minus | mul =>
    simp [evalOp, throws_total_binary_iff, DwOp.operands, DwOp.Defined, DwOp.NeedsFrameBase]
  case eq | ge | gt | le | lt | ne =>
    rw [evalOp]
    refine throws_total_binary_iff.trans ?_
    simp [DwOp.operands, DwOp.Defined, DwOp.NeedsFrameBase]
  case div | mod =>
    simp [evalOp, throws_binary_divOp_iff, DwOp.operands, DwOp.Defined, DwOp.NeedsFrameBase]
  case shl | shr | shra =>
    simp [evalOp, throws_binary_shiftOp_iff, DwOp.operands, DwOp.Defined, DwOp.NeedsFrameBase]
  -- Those that read a register or the frame base.
  case breg | bregx =>
    simp only [evalOp, throws_pushReg]
    simp [DwOp.operands, DwOp.Defined, DwOp.NeedsFrameBase]
  case fbreg | callFrameCfa =>
    simp only [evalOp, throws_pushFrameBase_iff]
    simp [DwOp.operands, DwOp.Defined, DwOp.NeedsFrameBase]
  -- The rest ask for nothing.
  all_goals
    simp [evalOp, DwOp.operands, DwOp.Defined, DwOp.NeedsFrameBase, isException_noEntry]

/-- An unrecognised opcode ends in an exception. -/
theorem throws_evalInstr_iff :
    Throws IsException (evalInstr ctx st i) ↔ ∀ op, i.op = some op → op.SafeIn ctx i st := by
  rw [evalInstr]
  cases i.op with
  | none => simp [isException_notSupported]
  | some op => simp [throws_evalOp_iff]

end Operations

section Runs

variable {ctx : EvalContext}

/-- `tos()` has something to return. -/
def SafeEnd (st : EvalState) : Prop := st.tosState = .implicitPointer ∨ st.stack ≠ []

/-- Every operation that is run up to the end or the first piece finds what it asks for, and so
does `tos()` after them. -/
def SafeRun (ctx : EvalContext) : List ExprInstr → EvalState → Prop
  | [], st => SafeEnd st
  | i :: rest, st =>
    if i.op = some .piece then SafeEnd st
    else (∀ op, i.op = some op → op.SafeIn ctx i st) ∧
      ∀ st', evalInstr ctx st i = .ok st' → SafeRun ctx rest st'

theorem throws_tos_iff {e : Evaluator} : Throws IsException e.tos ↔ SafeEnd e.st := by
  rw [Evaluator.tos_eq, SafeEnd]
  split_ifs with himplicit
  · exact iff_of_true (Throws.ok _) (.inl himplicit)
  · rw [or_iff_right himplicit]
    cases e.st.stack <;> simp

/-- The loop and then `tos()`, from any state. -/
theorem throws_evalLoop_iff (l expr : List ExprInstr) (st : EvalState) :
    Throws IsException (do
      let r ← evalLoop ctx l st
      (Evaluator.mk expr r.2 r.1).tos) ↔ SafeRun ctx l st := by
  induction l generalizing st with
  | nil =>
    rw [evalLoop, ok_bind, SafeRun]
    exact throws_tos_iff
  | cons i rest ih =>
    rw [evalLoop, SafeRun]
    split_ifs with hpiece
    · exact throws_tos_iff
    · rw [bind_assoc, throws_bind_iff, throws_evalInstr_iff]
      simp only [ih]

/-- **The evaluator and `tos()` end in a value or an exception just if the run is safe**: nothing
checks the depth of the stack after the last operation, nor a divisor or a shift amount. -/
theorem evaluator_safe_iff (ctx : EvalContext) (l : List ExprInstr) (s : List (BitVec 64)) :
    Throws IsException (do let e ← evaluator ctx l s; e.tos) ↔ SafeRun ctx l (.start s) := by
  rw [evaluator_eq, bind_assoc]
  exact throws_evalLoop_iff l l (.start s)

/-- `DW_OP_reg0` leaves the stack as it is, and the top of an empty stack is then read. -/
theorem not_evaluator_safe : ¬∀ (ctx : EvalContext) (l : List ExprInstr) (s : List (BitVec 64)),
    Throws IsException (do let e ← evaluator ctx l s; e.tos) := by
  intro h
  have hreg := h ⟨none, none⟩ [(DwOp.reg 0).instr] [] .undefinedBehaviour (by decide)
  exact not_isException_undefinedBehaviour hreg

end Runs

end Expr
end Dwarfpp
