/-
# Resuming after a piece

`evaluator::eval_next` (`include/dwarfpp/expr.hpp`) on expressions made of
pieces.  The evaluator is written once more in `Logged`, every operation that its
`switch` is entered with an event (`evalLog_result`).

`eval` leaves the iterator behind the `DW_OP_piece` it stops at, and advances it
once more when it is called again.  So the first stop is as it should be in every
join (`stopLog_zero`), and the first operation of the second piece is never
executed (`evalLog_consumes`): the stops are those of the pieces just if there is
one piece (`resumes_iff`).
-/

import Dwarfpp.Expr.Evaluator
import Dwarfpp.Lib.Logged
import Dwarfpp.Lib.Chunks

namespace Dwarfpp
namespace Expr

open Lib

/-- A computation that logs the operations it executes. -/
abbrev OpLog := Logged ExprInstr Fault

/-- `evalLoop`, logged. -/
def evalLoopLog (ctx : EvalContext) : List ExprInstr → EvalState →
    OpLog (EvalState × List ExprInstr)
  | [], st => pure (st, [])
  | i :: rest, st => do
    let _ ← Logged.event i ()
    if i.op = some .piece then pure (st, rest)
    else do
      let st ← Logged.lift (evalInstr ctx st i)
      evalLoopLog ctx rest st

/-- `eval()`, logged. -/
def Evaluator.evalLog (ctx : EvalContext) (e : Evaluator) : OpLog Evaluator := do
  let (st, rest) ←
    if e.rest ≠ [] ∧ e.rest.length ≠ e.expr.length then
      evalLoopLog ctx e.rest.tail { e.st with stack := [] }
    else evalLoopLog ctx e.rest e.st
  return { e with rest := rest, st := st }

/-- `eval_next()`. -/
def Evaluator.evalNext (ctx : EvalContext) (e : Evaluator) : Except Fault Evaluator := do
  assert (e.rest ≠ [] ∧ e.rest.length ≠ e.expr.length)
  e.eval ctx

/-- `eval_next()`, logged. -/
def Evaluator.evalNextLog (ctx : EvalContext) (e : Evaluator) : OpLog Evaluator := do
  Logged.lift (assert (e.rest ≠ [] ∧ e.rest.length ≠ e.expr.length))
  e.evalLog ctx

/-- An evaluator is made on the expression and resumed `k` times. -/
def stopLog (ctx : EvalContext) (l : List ExprInstr) : ℕ → OpLog Evaluator
  | 0 => Evaluator.evalLog ctx ⟨l, l, .start []⟩
  | k + 1 => do
    let e ← stopLog ctx l k
    e.evalNextLog ctx

section Results

variable (ctx : EvalContext)

theorem evalLoopLog_result (l : List ExprInstr) (st : EvalState) :
    (evalLoopLog ctx l st).result = evalLoop ctx l st := by
  induction l generalizing st with
  | nil => rfl
  | cons i rest ih =>
    rw [evalLoopLog, evalLoop, Logged.result_bind, Logged.result_event, ok_bind,
      Logged.result_ite, Logged.result_bind, Logged.result_lift]
    simp only [ih, Logged.result_pure]

/-- **The logged evaluator computes what the evaluator does.** -/
theorem evalLog_result (e : Evaluator) : (e.evalLog ctx).result = e.eval ctx := by
  rw [Evaluator.evalLog, Evaluator.eval, Logged.result_ite, Logged.result_bind,
    Logged.result_bind, evalLoopLog_result, evalLoopLog_result]
  rfl

theorem evalNextLog_result (e : Evaluator) : (e.evalNextLog ctx).result = e.evalNext ctx := by
  rw [Evaluator.evalNextLog, Evaluator.evalNext, Logged.result_bind, Logged.result_lift]
  simp only [evalLog_result]

/-- The first stop is that of a fresh evaluator, -/
theorem stopLog_zero_result (l : List ExprInstr) :
    (stopLog ctx l 0).result = evaluator ctx l [] :=
  evalLog_result ctx _

/-- and every other one that of the evaluator resumed. -/
theorem stopLog_succ_result (l : List ExprInstr) (k : ℕ) :
    (stopLog ctx l (k + 1)).result =
      (do let e ← (stopLog ctx l k).result; e.evalNext ctx) := by
  rw [stopLog, Logged.result_bind]
  simp only [evalNextLog_result]

end Results

/-- A piece: its operations and the `DW_OP_piece` that ends them. -/
abbrev OpPiece := Chunk fun i : ExprInstr => i.op = some .piece

/-- The operations of a piece can be evaluated from the empty stack. -/
def OpPiece.Evaluable (ctx : EvalContext) (p : OpPiece) : Prop :=
  ∃ e, evaluator ctx p.body [] = .ok e

open Chunk (join)

/-- The evaluator stops after each piece in turn: the operations executed so far are those of the
pieces so far, the iterator stands behind them, and the stack and the state are those of
evaluating the piece alone. -/
def Resumes (ctx : EvalContext) (ps : List OpPiece) : Prop :=
  ∀ k (hk : k < ps.length), ∃ e alone, (stopLog ctx (join ps) k).result = .ok e ∧
    (stopLog ctx (join ps) k).log = join (ps.take (k + 1)) ∧
    e.rest = join (ps.drop (k + 1)) ∧
    evaluator ctx ps[k].body [] = .ok alone ∧
    e.st.stack = alone.st.stack ∧ e.st.tosState = alone.st.tosState

section Stops

variable {ctx : EvalContext}

/-- A piece that can be evaluated is executed to its end. -/
theorem evalLoopLog_append {ops : List ExprInstr} (hplain : ∀ i ∈ ops, i.op ≠ some .piece)
    {pieceOp : ExprInstr} (hends : pieceOp.op = some .piece) {rest rest' : List ExprInstr}
    {st st' : EvalState} (h : evalLoop ctx ops st = .ok (st', rest')) :
    evalLoopLog ctx (ops ++ pieceOp :: rest) st = ⟨ops ++ [pieceOp], .ok (st', rest)⟩ := by
  induction ops generalizing st with
  | nil =>
    obtain ⟨rfl, -⟩ := Prod.mk.inj (Except.ok.inj h)
    rw [List.nil_append, evalLoopLog, if_pos hends]
    rfl
  | cons i ops ih =>
    have hi := hplain i List.mem_cons_self
    rw [evalLoop, if_neg hi] at h
    obtain ⟨st₁, hst₁, h⟩ := bind_eq_ok.1 h
    have hrest := ih (fun j hj => hplain j (List.mem_cons_of_mem _ hj)) h
    rw [List.cons_append, evalLoopLog, if_neg hi, hst₁]
    show (Logged.event i () >>= fun _ => evalLoopLog ctx (ops ++ pieceOp :: rest) st₁) = _
    rw [hrest]
    rfl

/-- **The first stop is as it should be.** -/
theorem stopLog_zero {p : OpPiece} {ps : List OpPiece} {alone : Evaluator}
    (h : evaluator ctx p.body [] = .ok alone) :
    stopLog ctx (join (p :: ps)) 0 =
      ⟨p.list, .ok ⟨join (p :: ps), join ps, alone.st⟩⟩ := by
  rw [evaluator_eq] at h
  obtain ⟨⟨st, rest⟩, hloop, h⟩ := bind_eq_ok.1 h
  obtain rfl := Except.ok.inj h
  have hrun : evalLoopLog ctx (p.body ++ p.last :: join ps) (.start []) =
      ⟨p.list, .ok (st, join ps)⟩ := evalLoopLog_append p.plain p.ends hloop
  have hexpr : join (p :: ps) = p.body ++ p.last :: join ps := by
    rw [Chunk.join_cons, Chunk.list, List.append_assoc]
    rfl
  rw [stopLog, Evaluator.evalLog, if_neg (fun hne => hne.2 rfl), hexpr, hrun]
  show Logged.mk (p.list ++ []) _ = _
  rw [List.append_nil]
  rfl

/-- What a run of the loop executes and what it leaves make up the operations it began with. -/
theorem evalLoopLog_consumes {l rest : List ExprInstr} {st st' : EvalState}
    (h : (evalLoopLog ctx l st).result = .ok (st', rest)) :
    (evalLoopLog ctx l st).log ++ rest = l := by
  induction l generalizing st with
  | nil =>
    obtain ⟨-, rfl⟩ := Prod.mk.inj (Except.ok.inj h)
    rfl
  | cons i l ih =>
    rw [evalLoopLog] at h ⊢
    rw [Logged.log_bind_ok (Logged.result_event i ()), Logged.log_event]
    rw [Logged.result_bind, Logged.result_event, ok_bind] at h
    split_ifs at h ⊢ with hpiece
    · obtain ⟨-, rfl⟩ := Prod.mk.inj (Except.ok.inj h)
      rfl
    · rw [Logged.result_bind, Logged.result_lift] at h
      obtain ⟨st₁, hst₁, h⟩ := bind_eq_ok.1 h
      rw [Logged.log_bind_ok ((Logged.result_lift _).trans hst₁), Logged.log_lift,
        List.nil_append, List.append_assoc, ih h]
      rfl

/-- **Resuming skips an operation.**  What is executed and what is left make up all but the first
operation behind the iterator. -/
theorem evalNextLog_consumes {e e' : Evaluator} (h : (e.evalNextLog ctx).result = .ok e') :
    e.rest ≠ [] ∧ (e.evalNextLog ctx).log ++ e'.rest = e.rest.tail := by
  rw [Evaluator.evalNextLog, Logged.result_bind, Logged.result_lift] at h
  obtain ⟨⟨⟩, hassert, h⟩ := bind_eq_ok.1 h
  have hstop : e.rest ≠ [] ∧ e.rest.length ≠ e.expr.length := assert_eq_ok.1 hassert
  rw [Evaluator.evalNextLog, Logged.log_bind_ok ((Logged.result_lift _).trans hassert),
    Logged.log_lift, List.nil_append]
  rw [Evaluator.evalLog, if_pos hstop] at h ⊢
  rw [Logged.result_bind] at h
  obtain ⟨⟨st, rest⟩, hloop, h⟩ := bind_eq_ok.1 h
  obtain rfl := Except.ok.inj h
  rw [Logged.log_bind_ok hloop, Logged.log_pure, List.append_nil]
  exact ⟨hstop.1, evalLoopLog_consumes hloop⟩

/-- With a second piece, the stops go wrong. -/
theorem not_resumes_of_two (p q : OpPiece) (ps : List OpPiece) : ¬Resumes ctx (p :: q :: ps) := by
  intro h
  obtain ⟨e₀, -, he₀, hlog₀, hrest₀, -⟩ := h 0 (by simp)
  obtain ⟨e₁, -, he₁, hlog₁, hrest₁, -⟩ := h 1 (by simp)
  rw [stopLog, Logged.result_bind, he₀, ok_bind] at he₁
  rw [stopLog, Logged.log_bind_ok he₀, hlog₀] at hlog₁
  obtain ⟨hne, hskip⟩ := evalNextLog_consumes he₁
  have hlog : (e₀.evalNextLog ctx).log = q.list := by simpa using hlog₁
  have hrest : e₁.rest = join ps := by simpa using hrest₁
  have hbefore : e₀.rest = q.list ++ join ps := by simpa using hrest₀
  rw [hlog, hrest, ← hbefore] at hskip
  have hlen := congrArg List.length hskip
  rw [List.length_tail] at hlen
  have := List.length_pos_iff.2 hne
  omega

/-- **The stops are those of the pieces just if there is one.** -/
theorem resumes_iff {ps : List OpPiece} (hne : ps ≠ [])
    (heval : ∀ p ∈ ps, OpPiece.Evaluable ctx p) : Resumes ctx ps ↔ ps.length = 1 := by
  rcases ps with _ | ⟨p, _ | ⟨q, ps⟩⟩
  · exact absurd rfl hne
  · refine iff_of_true (fun k hk => ?_) rfl
    obtain rfl : k = 0 := Nat.lt_one_iff.1 hk
    obtain ⟨alone, halone⟩ := heval p List.mem_cons_self
    rw [stopLog_zero halone]
    exact ⟨_, alone, rfl, by simp, rfl, halone, rfl, rfl⟩
  · exact iff_of_false (not_resumes_of_two p q ps) (by simp)

end Stops

/-- A piece of four bytes at address zero. -/
def zeroPiece : OpPiece where
  body := [(DwOp.lit 0).instr]
  last := DwOp.piece.instr 4
  plain := by decide
  ends := by decide

theorem resumes_zeroPiece : Resumes ⟨none, none⟩ [zeroPiece] ↔ [zeroPiece].length = 1 := by
  refine resumes_iff (List.cons_ne_nil _ _) fun p hp => ?_
  obtain rfl := List.mem_singleton.1 hp
  exact ⟨_, rfl⟩

/-- Of two pieces the `DW_OP_lit0` that begins the second is skipped. -/
theorem not_resumes_zeroPieces : ¬∀ (ctx : EvalContext) (ps : List OpPiece), ps ≠ [] →
    (∀ p ∈ ps, OpPiece.Evaluable ctx p) → Resumes ctx ps := by
  intro h
  refine not_resumes_of_two zeroPiece zeroPiece [] (h ⟨none, none⟩ _ (List.cons_ne_nil _ _) ?_)
  intro p hp
  obtain rfl : p = zeroPiece := by simpa using hp
  exact ⟨_, rfl⟩

end Expr
end Dwarfpp
