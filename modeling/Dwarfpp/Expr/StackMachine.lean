/-
# The evaluator and the DWARF stack machine

The stack machine the standard defines for the operations that read no memory,
on 64-bit words, and where the evaluator of `src/expr.cpp` stays in step with
it.  It does so unless it runs

* a `DW_OP_lit<n>`, `DW_OP_breg<n>` or `DW_OP_bregx`, which grow the stack twice
  (`morestack(1); PUSH(..)`, and `PUSH` begins with a `morestack(1)` of its own),
* a `DW_OP_shra` of a negative word, which is shifted as an unsigned one, or
* a `DW_OP_abs` or `DW_OP_div` whose result is the negative of the least word,
  on which signed C++ arithmetic overflows.
-/

import Dwarfpp.Expr.Evaluator

namespace Dwarfpp
namespace Expr

open Lib

/-- What an expression is evaluated against: the registers and the frame base, which
`DW_OP_call_frame_cfa` is given too. -/
structure Machine where
  regs : ℤ → BitVec 64
  frameBase : BitVec 64

/-- The machine as the evaluator is handed it. -/
def Machine.context (m : Machine) : EvalContext := ⟨some m.regs, some m.frameBase⟩

/-- Replaces the top entry. -/
def stdUnary (f : BitVec 64 → BitVec 64) : List (BitVec 64) → Option (List (BitVec 64))
  | x :: s => some (f x :: s)
  | [] => none

/-- Replaces the two top entries, the former top being the second operand. -/
def stdBinary (f : BitVec 64 → BitVec 64 → Option (BitVec 64)) :
    List (BitVec 64) → Option (List (BitVec 64))
  | top :: second :: s => (f second top).map (· :: s)
  | _ => none

/-- Pushes a copy of the entry with the given index. -/
def stdPick (n : ℕ) (s : List (BitVec 64)) : Option (List (BitVec 64)) := s[n]?.map (· :: s)

/-- A shift by less than the width. -/
def stdShift (f : BitVec 64 → ℕ → BitVec 64) (x n : BitVec 64) : Option (BitVec 64) :=
  if n.toNat < 64 then some (f x n.toNat) else none

/-- A signed comparison. -/
def stdCompare (p : BitVec 64 → BitVec 64 → Bool) (x y : BitVec 64) : Option (BitVec 64) :=
  some (if p x y then 1 else 0)

/-- **The stack machine of the standard.**  No result where the stack is too shallow, a divisor is
zero or a shift amount too large, and for the operations not considered. -/
def stdOp (m : Machine) (i : ExprInstr) (s : List (BitVec 64)) : DwOp → Option (List (BitVec 64))
  | .addr | .const1u | .const1s | .const2u | .const2s | .const4u | .const4s | .const8u | .const8s
  | .constu | .consts => some (i.lrNumber :: s)
  | .lit n => some (BitVec.ofNat 64 n :: s)
  | .breg n => some ((m.regs n + i.lrNumber) :: s)
  | .bregx => some ((m.regs i.lrNumber.toNat + i.lrNumber2) :: s)
  | .fbreg => some ((m.frameBase + i.lrNumber) :: s)
  | .callFrameCfa => some (m.frameBase :: s)
  | .dup => stdPick 0 s
  | .over => stdPick 1 s
  | .pick => if i.lrNumber.toNat < 256 then stdPick i.lrNumber.toNat s else none
  | .drop => if s = [] then none else some s.tail
  | .swap =>
    match s with
    | x :: y :: s => some (y :: x :: s)
    | _ => none
  | .rot =>
    match s with
    | x :: y :: z :: s => some (y :: z :: x :: s)
    | _ => none
  | .abs => stdUnary BitVec.abs s
  | .neg => stdUnary (fun x => -x) s
  | .not => stdUnary (fun x => ~~~x) s
  | .plusUconst => stdUnary (· + i.lrNumber) s
  | .and => stdBinary (fun x y => some (x &&& y)) s
  | .or => stdBinary (fun x y => some (x ||| y)) s
  | .xor => stdBinary (fun x y => some (x ^^^ y)) s
  | .plus => stdBinary (fun x y => some (x + y)) s
  | .minus => stdBinary (fun x y => some (x - y)) s
  | .mul => stdBinary (fun x y => some (x * y)) s
  | .div => stdBinary (fun x y => if y = 0 then none else some (x.sdiv y)) s
  | .shl => stdBinary (stdShift fun x n => x <<< n) s
  | .shr => stdBinary (stdShift fun x n => x >>> n) s
  | .shra => stdBinary (stdShift BitVec.sshiftRight) s
  | .eq => stdBinary (stdCompare (· == ·)) s
  | .ne => stdBinary (stdCompare (· != ·)) s
  | .le => stdBinary (stdCompare BitVec.sle) s
  | .lt => stdBinary (stdCompare BitVec.slt) s
  | .ge => stdBinary (stdCompare fun x y => y.sle x) s
  | .gt => stdBinary (stdCompare fun x y => y.slt x) s
  | .nop | .stackValue => some s
  | .deref | .xderef | .derefSize | .xderefSize | .mod | .reg _ | .regx | .piece
  | .gnuImplicitPointer => none

/-- One step of the stack machine. -/
def stdStep (m : Machine) (s : List (BitVec 64)) (i : ExprInstr) : Option (List (BitVec 64)) :=
  i.op.bind (stdOp m i s)

/-- **Where the evaluator keeps to the stack machine**: the condition on an operation and the
stack before it. -/
def DwOp.InStep (s : List (BitVec 64)) : DwOp → Prop
  | .lit _ | .breg _ | .bregx => False
  | .abs => s.head? ≠ some minSigned
  | .div => ¬(s.head? = some (-1) ∧ s[1]? = some minSigned)
  | .shra => s.head? = some 0 ∨ ∀ x, s[1]? = some x → x.msb = false
  | _ => True

/-- The same of an instruction. -/
def InStep (s : List (BitVec 64)) (i : ExprInstr) : Prop := ∀ op, i.op = some op → op.InStep s

theorem inStep_iff {s : List (BitVec 64)} {i : ExprInstr} {op : DwOp} (h : i.op = some op) :
    InStep s i ↔ op.InStep s :=
  ⟨fun hi => hi op h, fun hop _ h' => Option.some.inj (h.symm.trans h') ▸ hop⟩

/-- The operations on which the evaluator keeps to the stack machine whatever the stack. -/
def DwOp.ordinary : DwOp → Bool
  | .lit _ | .breg _ | .bregx | .abs | .div | .shra => false
  | _ => true

theorem DwOp.inStep_of_ordinary {op : DwOp} (h : op.ordinary) (s : List (BitVec 64)) :
    op.InStep s := by
  cases op <;> trivial

section Step

variable {st : EvalState} {s' : List (BitVec 64)}

/-- A step returned and left the given stack. -/
def Leaves (x : Except Fault EvalState) (s : List (BitVec 64)) : Prop :=
  ∃ st', x = .ok st' ∧ st'.stack = s

@[simp] theorem leaves_ok {st' : EvalState} : Leaves (.ok st') s' ↔ st'.stack = s' :=
  ⟨fun ⟨_, h, hs⟩ => Except.ok.inj h ▸ hs, fun h => ⟨st', rfl, h⟩⟩

@[simp] theorem leaves_error {e : Fault} : ¬Leaves (.error e) s' :=
  fun ⟨_, h, _⟩ => nomatch h

/-- A step that grows the stack twice leaves no stack of the height expected. -/
theorem not_leaves_morestack_push {x y : BitVec 64} :
    ¬Leaves (.ok (st.morestack.push x)) (y :: st.stack) := by
  rw [leaves_ok]
  intro h
  have := congrArg List.length h
  simp [EvalState.push, EvalState.morestack] at this

theorem leaves_index {n : BitVec 64} {k : ℕ} (hn : (n.setWidth 32).toNat = k)
    (h : stdPick k st.stack = some s') :
    Leaves (do let tmp ← st.index n; return st.push tmp) s' := by
  rw [stdPick, Option.map_eq_some_iff] at h
  obtain ⟨x, hx, rfl⟩ := h
  rw [EvalState.index, hn, hx]
  exact leaves_ok.2 rfl

theorem stdUnary_eq_some {g : BitVec 64 → BitVec 64} {s : List (BitVec 64)}
    (h : stdUnary g s = some s') : ∃ x rest, s = x :: rest ∧ s' = g x :: rest := by
  cases s with
  | nil => exact nomatch h
  | cons x rest => exact ⟨x, rest, rfl, (Option.some.inj h).symm⟩

theorem stdBinary_eq_some {g : BitVec 64 → BitVec 64 → Option (BitVec 64)}
    {s : List (BitVec 64)} (h : stdBinary g s = some s') :
    ∃ top second rest z, s = top :: second :: rest ∧ g second top = some z ∧ s' = z :: rest := by
  rcases s with _ | ⟨top, _ | ⟨second, rest⟩⟩
  · exact nomatch h
  · exact nomatch h
  · obtain ⟨z, hz, hs'⟩ := Option.map_eq_some_iff.1 h
    exact ⟨top, second, rest, z, rfl, hz, hs'.symm⟩

/-- A unary operation leaves the word it computes. -/
theorem leaves_unary {f : BitVec 64 → Except Fault (BitVec 64)} {x z : BitVec 64}
    {rest : List (BitVec 64)} (hs : st.stack = x :: rest) :
    Leaves (st.unary f) (z :: rest) ↔ f x = .ok z := by
  rw [EvalState.unary, hs]
  cases hf : f x with
  | error e => simp [hf]
  | ok y => simp [hf, pure, Except.pure]

/-- A binary operation leaves the word it computes. -/
theorem leaves_binary {f : BitVec 64 → BitVec 64 → Except Fault (BitVec 64)}
    {top second z : BitVec 64} {rest : List (BitVec 64)} (hs : st.stack = top :: second :: rest) :
    Leaves (st.binary f) (z :: rest) ↔ f top second = .ok z := by
  rw [EvalState.binary, hs]
  cases hf : f top second with
  | error e => simp [hf]
  | ok y => simp [hf, pure, Except.pure]

theorem leaves_unary_of {f : BitVec 64 → Except Fault (BitVec 64)} {g : BitVec 64 → BitVec 64}
    (h : stdUnary g st.stack = some s') (hfg : ∀ x, f x = .ok (g x)) : Leaves (st.unary f) s' := by
  obtain ⟨x, rest, hs, rfl⟩ := stdUnary_eq_some h
  exact (leaves_unary hs).2 (hfg x)

theorem leaves_binary_of {f : BitVec 64 → BitVec 64 → Except Fault (BitVec 64)}
    {g : BitVec 64 → BitVec 64 → Option (BitVec 64)} (h : stdBinary g st.stack = some s')
    (hfg : ∀ top second z, g second top = some z → f top second = .ok z) :
    Leaves (st.binary f) s' := by
  obtain ⟨top, second, rest, z, hs, hz, rfl⟩ := stdBinary_eq_some h
  exact (leaves_binary hs).2 (hfg top second z hz)

theorem shiftOp_eq_ok {f : BitVec 64 → ℕ → BitVec 64} {n x z : BitVec 64}
    (h : stdShift f x n = some z) : shiftOp f n x = .ok z := by
  rw [stdShift] at h
  split_ifs at h with hn
  rw [shiftOp, if_pos hn, Option.some.inj h]

theorem compareOp_eq_ok {p : ℤ → ℤ → Bool} {q : BitVec 64 → BitVec 64 → Bool}
    (hpq : ∀ x y, q x y = p x.toInt y.toInt) {x y z : BitVec 64} (h : stdCompare q x y = some z) :
    compareOp p y x = .ok z := by
  rw [stdCompare, hpq] at h
  rw [compareOp, Option.some.inj h]

/-- `DW_OP_abs` computes the absolute value of every word but the least. -/
theorem absOp_eq_ok (x : BitVec 64) : absOp x = .ok x.abs ↔ x ≠ minSigned := by
  rw [absOp, BitVec.abs, BitVec.msb_eq_toInt]
  by_cases h : x.toInt < 0
  · by_cases hx : x = minSigned
    · rw [if_pos h, if_pos hx]
      simp [hx]
    · simp [h, hx]
  · simp only [h, if_false, decide_false, Bool.false_eq_true, true_iff]
    rintro rfl
    exact h (by decide)

theorem divOp_sdiv_eq_ok {x y : BitVec 64} (hy : y ≠ 0) :
    divOp BitVec.sdiv y x = .ok (x.sdiv y) ↔ ¬(x = minSigned ∧ y = -1) := by
  rw [divOp]
  by_cases h : x = minSigned ∧ y = -1
  · rw [if_pos (Or.inr h)]
    exact ⟨fun h' => (nomatch h'), fun h' => absurd h h'⟩
  · rw [if_neg (not_or.2 ⟨hy, h⟩)]
    exact ⟨fun _ => h, fun _ => rfl⟩

/-- A logical shift is the arithmetic one of non-negative words and by nothing. -/
theorem ushiftRight_eq_sshiftRight {x : BitVec 64} {n : ℕ} :
    x >>> n = x.sshiftRight n ↔ n = 0 ∨ x.msb = false := by
  constructor
  · intro h
    have hmsb := congrArg BitVec.msb h
    rw [BitVec.msb_ushiftRight, BitVec.msb_sshiftRight] at hmsb
    rcases Nat.eq_zero_or_pos n with hn | hn
    · exact .inl hn
    · simp only [hn, decide_true, Bool.not_true, Bool.false_and] at hmsb
      exact .inr hmsb.symm
  · rintro (rfl | h)
    · simp
    · exact (BitVec.sshiftRight_eq_of_msb_false h).symm

/-- **The operations the evaluator gets right.** -/
theorem leaves_ordinary (m : Machine) {i : ExprInstr} {op : DwOp} (hord : op.ordinary)
    (h : stdOp m i st.stack op = some s') : Leaves (evalOp m.context i st op) s' := by
  cases op with
  | addr | const1u | const1s | const2u | const2s | const4u | const4s | const8u | const8s
  | constu | consts | fbreg | callFrameCfa | nop | stackValue =>
    exact leaves_ok.2 (Option.some.inj h)
  | lit n | breg n | bregx | abs | div | shra => exact nomatch hord
  | deref | xderef | derefSize | xderefSize | mod | reg n | regx | piece | gnuImplicitPointer =>
    exact nomatch h
  | dup => exact leaves_index rfl h
  | «over» => exact leaves_index rfl h
  | pick =>
    rw [stdOp] at h
    split_ifs at h with hn
    refine leaves_index ?_ h
    rw [BitVec.toNat_setWidth, Nat.mod_eq_of_lt (by omega)]
  | drop =>
    rw [stdOp] at h
    split_ifs at h with hs
    obtain ⟨x, rest, hs⟩ := List.exists_cons_of_ne_nil hs
    simpa [evalOp, EvalState.index, hs, pure, Except.pure] using h
  | swap =>
    simp only [stdOp] at h
    split at h
    case h_1 x y rest hs =>
      simp only [evalOp, hs, leaves_ok]
      exact Option.some.inj h
    case h_2 => exact nomatch h
  | rot =>
    simp only [stdOp] at h
    split at h
    case h_1 x y z rest hs =>
      simp only [evalOp, hs, leaves_ok]
      exact Option.some.inj h
    case h_2 => exact nomatch h
  | neg | not | plusUconst => exact leaves_unary_of h fun x => rfl
  | and => exact leaves_binary_of h fun x y z hz => by rw [← Option.some.inj hz, BitVec.and_comm]
  | or => exact leaves_binary_of h fun x y z hz => by rw [← Option.some.inj hz, BitVec.or_comm]
  | xor => exact leaves_binary_of h fun x y z hz => by rw [← Option.some.inj hz, BitVec.xor_comm]
  | plus => exact leaves_binary_of h fun x y z hz => by rw [← Option.some.inj hz, BitVec.add_comm]
  | minus => exact leaves_binary_of h fun x y z hz => by rw [Option.some.inj hz]
  | mul => exact leaves_binary_of h fun x y z hz => by rw [← Option.some.inj hz, BitVec.mul_comm]
  | shl | shr => exact leaves_binary_of h fun _ _ _ hz => shiftOp_eq_ok hz
  | eq =>
    exact leaves_binary_of h fun _ _ _ hz => compareOp_eq_ok
      (fun x y => by simp [BitVec.toInt_inj, beq_eq_decide]) hz
  | ne =>
    exact leaves_binary_of h fun _ _ _ hz => compareOp_eq_ok
      (fun x y => by simp [BitVec.toInt_inj, bne, beq_eq_decide]) hz
  | le | lt | ge | gt =>
    exact leaves_binary_of h fun _ _ _ hz => compareOp_eq_ok (fun _ _ => rfl) hz

/-- **One step.**  Where the stack machine takes a step, the evaluator takes the same one exactly
under the condition `InStep`. -/
theorem leaves_iff_inStep (m : Machine) {i : ExprInstr} (h : stdStep m st.stack i = some s') :
    Leaves (evalInstr m.context st i) s' ↔ InStep st.stack i := by
  obtain ⟨op, hop, h⟩ := Option.bind_eq_some_iff.1 h
  rw [evalInstr_of_op hop, inStep_iff hop]
  by_cases hord : op.ordinary
  · exact ⟨fun _ => op.inStep_of_ordinary hord _, fun _ => leaves_ordinary m hord h⟩
  cases op with
  | lit n =>
    obtain rfl := Option.some.inj h
    exact ⟨not_leaves_morestack_push, False.elim⟩
  | breg n =>
    obtain rfl := Option.some.inj h
    exact ⟨not_leaves_morestack_push, False.elim⟩
  | bregx =>
    obtain rfl := Option.some.inj h
    exact ⟨not_leaves_morestack_push, False.elim⟩
  | abs =>
    obtain ⟨x, rest, hs, rfl⟩ := stdUnary_eq_some h
    rw [evalOp, leaves_unary hs, absOp_eq_ok, DwOp.InStep, hs, List.head?_cons, ne_eq, ne_eq,
      Option.some.injEq]
  | div =>
    obtain ⟨top, second, rest, z, hs, hz, rfl⟩ := stdBinary_eq_some h
    have htop : top ≠ 0 := fun h0 => by simp [h0] at hz
    rw [if_neg htop] at hz
    rw [evalOp, leaves_binary hs, ← Option.some.inj hz, divOp_sdiv_eq_ok htop, DwOp.InStep, hs,
      and_comm]
    simp
  | shra =>
    obtain ⟨top, second, rest, z, hs, hz, rfl⟩ := stdBinary_eq_some h
    have htop : top.toNat < 64 := by
      by_contra htop
      rw [stdShift, if_neg htop] at hz
      exact nomatch hz
    have hzero : top.toNat = 0 ↔ top = 0 := by
      rw [← BitVec.toNat_inj]
      rfl
    rw [stdShift, if_pos htop] at hz
    rw [evalOp, leaves_binary hs, ← Option.some.inj hz, shiftOp, if_pos htop, Except.ok.injEq,
      ushiftRight_eq_sshiftRight, hzero, DwOp.InStep, hs]
    simp
  | _ => exact absurd rfl hord

end Step

section Run

variable (m : Machine)

/-- The run of the stack machine over an expression. -/
def stdRun (l : List ExprInstr) (s : List (BitVec 64)) : Option (List (BitVec 64)) :=
  l.foldlM (stdStep m) s

/-- The evaluator, started on the stack `s`, runs the whole of `l` and leaves the stack `s'`. -/
def EvaluatesTo (l : List ExprInstr) (s s' : List (BitVec 64)) : Prop :=
  ∃ e, evaluator m.context l s = .ok e ∧ e.finished ∧ e.st.stack = s'

/-- A run of the stack machine meets no `DW_OP_piece`. -/
theorem ne_piece_of_stdRun {l : List ExprInstr} {s : List (BitVec 64)}
    (h : (stdRun m l s).isSome) : ∀ i ∈ l, i.op ≠ some .piece := by
  induction l generalizing s with
  | nil => exact fun _ h => absurd h List.not_mem_nil
  | cons i l ih =>
    obtain ⟨s', hs'⟩ := Option.isSome_iff_exists.1 h
    rw [stdRun, List.foldlM_cons] at hs'
    obtain ⟨s₁, hs₁, hrest⟩ := Option.bind_eq_some_iff.1 hs'
    intro j hj
    rcases List.mem_cons.1 hj with rfl | hj
    · intro hop
      rw [stdStep, hop] at hs₁
      exact nomatch hs₁
    · exact ih (Option.isSome_iff_exists.2 ⟨s', hrest⟩) j hj

theorem evaluatesTo_iff {l : List ExprInstr} {s s' : List (BitVec 64)}
    (hl : ∀ i ∈ l, i.op ≠ some .piece) :
    EvaluatesTo m l s s' ↔
      ∃ st, l.foldlM (evalInstr m.context) (.start s) = .ok st ∧ st.stack = s' := by
  rw [EvaluatesTo, evaluator_eq, evalLoop_eq_foldlM _ hl]
  cases l.foldlM (evalInstr m.context) (.start s) with
  | error e => simp
  | ok st => simp [Evaluator.finished, pure, Except.pure]

/-- The stacks before the operations of a run all meet the condition `InStep`. -/
def RunInStep (l : List ExprInstr) (s : List (BitVec 64)) : Prop := CleanRun (stdStep m) InStep l s

/-- **The evaluator against the stack machine.**  Let the stack machine of the standard have a run
over an expression: the initial stack is deep enough, divisors are not zero and shift amounts
below 64.  The evaluator leaves the stack of the standard, after the expression and after each of
its beginnings, if and only if the expression runs no `DW_OP_lit<n>`, `DW_OP_breg<n>` or
`DW_OP_bregx`, no `DW_OP_shra` of a negative word, and no `DW_OP_abs` or `DW_OP_div` whose result
overflows. -/
theorem evaluatesTo_iff_runInStep {l : List ExprInstr} {s : List (BitVec 64)}
    (h : (stdRun m l s).isSome) :
    (∀ p, p <+: l → ∃ s', stdRun m p s = some s' ∧ EvaluatesTo m p s s') ↔ RunInStep m l s := by
  have hpiece := ne_piece_of_stdRun m h
  rw [RunInStep]
  refine Iff.trans ?_ (foldlM_lockstep (r := EvalState.stack) (s := EvalState.start s)
    (fun st i s' => leaves_iff_inStep m) h)
  refine forall₂_congr fun p hp => ?_
  simp only [evaluatesTo_iff m fun i hi => hpiece i (hp.subset hi)]
  constructor
  · rintro ⟨s', hs', st, hst, rfl⟩
    exact ⟨st, hst, hs'⟩
  · rintro ⟨st, hst, hs'⟩
    exact ⟨st.stack, hs', st, hst, rfl⟩

theorem runInStep_of_ordinary {l : List ExprInstr}
    (hl : ∀ i ∈ l, (i.op.map DwOp.ordinary).getD true) (s : List (BitVec 64)) :
    RunInStep m l s := by
  induction l generalizing s with
  | nil => exact trivial
  | cons i l ih =>
    refine ⟨fun op hop => ?_, fun s' _ => ih (fun j hj => hl j (List.mem_cons_of_mem _ hj)) s'⟩
    have hord := hl i List.mem_cons_self
    rw [hop] at hord
    exact op.inStep_of_ordinary hord s

/-- `(6 - 3)` squared. -/
def squareExpr : List ExprInstr :=
  [DwOp.constu.instr 6, DwOp.constu.instr 3, DwOp.minus.instr, DwOp.dup.instr, DwOp.mul.instr]

/-- The evaluator computes it as the stack machine does. -/
theorem evaluatesTo_square : EvaluatesTo ⟨fun _ => 0, 0⟩ squareExpr [] [9] := by
  obtain ⟨s', hs', he⟩ := (evaluatesTo_iff_runInStep ⟨fun _ => 0, 0⟩ (l := squareExpr)
    (by decide)).2 (runInStep_of_ordinary _ (by decide) []) _ List.prefix_rfl
  obtain rfl : [9] = s' := Option.some.inj (by rw [← hs']; decide)
  exact he

/-- **`DW_OP_lit0` leaves two cells**: the zero it pushes and another below it. -/
theorem lit_not_evaluatesTo :
    ¬∀ (m : Machine) (l : List ExprInstr) (s s' : List (BitVec 64)),
      stdRun m l s = some s' → EvaluatesTo m l s s' := by
  intro h
  obtain ⟨e, he, -, hs⟩ := h ⟨fun _ => 0, 0⟩ [(DwOp.lit 0).instr] [] [0] (by decide)
  obtain rfl := Except.ok.inj he
  exact absurd hs (by decide)

end Run

end Expr
end Dwarfpp
