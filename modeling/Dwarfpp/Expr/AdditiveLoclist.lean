/-
# Locations made relative to a pushed base

`absolute_loclist_to_additive_loclist` (`src/expr.cpp`): every `DW_OP_fbreg n`
becomes `DW_OP_consts n; DW_OP_plus`, on the assumption that the frame base has
been pushed.

Up to the first `DW_OP_fbreg` the rewritten expression runs with the frame base
below the stack (`evalOp_padded`).  If that `DW_OP_fbreg` finds nothing but the
frame base on the stack, its replacement adds to the same word, and the stacks
are the same from there on, where no other one runs
(`absoluteLoclistToAdditiveLoclist_preserves`).
-/

import Dwarfpp.Expr.LoclistEvaluator

namespace Dwarfpp
namespace Expr

open Lib

/-- The loop over the operations of one entry.  The rest of `DW_OP_fbreg` is left the same. -/
def additiveInstrs : List ExprInstr → List ExprInstr
  | [] => []
  | i :: rest =>
    if i.lrAtom = DwOp.fbreg.atom then
      { i with lrAtom := DwOp.consts.atom } :: DwOp.plus.instr :: additiveInstrs rest
    else i :: additiveInstrs rest

/-- One entry, rewritten. -/
def LocExpr.additive (e : LocExpr) : LocExpr := { e with instrs := additiveInstrs e.instrs }

/-- `absolute_loclist_to_additive_loclist(l)`. -/
def absoluteLoclistToAdditiveLoclist (l : List LocExpr) : List LocExpr := l.map LocExpr.additive

/-- The top of the stack after evaluating a location list. -/
def loclistTos (ctx : EvalContext) (l : List LocExpr) (vaddr : BitVec 64)
    (initialStack : List (BitVec 64)) : Except Fault (BitVec 64) := do
  let e ← loclistEvaluator ctx l vaddr initialStack
  e.tos

/-- The rewriting keeps the top of the stack. -/
def PreservesTos (regs : Option (ℤ → BitVec 64)) (fb vaddr : BitVec 64) (l : List LocExpr) : Prop :=
  ∀ x, loclistTos ⟨regs, some fb⟩ l vaddr [] = .ok x →
    loclistTos ⟨regs, some fb⟩ (absoluteLoclistToAdditiveLoclist l) vaddr [fb] = .ok x

/-- No `DW_OP_fbreg` runs from a state on, up to the end, the first piece or a failure. -/
def NoFbregRuns (ctx : EvalContext) : List ExprInstr → EvalState → Prop
  | [], _ => True
  | i :: rest, st =>
    if i.op = some .piece then True
    else i.op ≠ some .fbreg ∧ ∀ st', evalInstr ctx st i = .ok st' → NoFbregRuns ctx rest st'

/-- A `DW_OP_fbreg` runs once at most, on a stack that holds nothing but frame bases (as the empty
one does) and not in the state of an implicit pointer. -/
def AddsOnce (ctx : EvalContext) (fb : BitVec 64) : List ExprInstr → EvalState → Prop
  | [], _ => True
  | i :: rest, st =>
    if i.op = some .piece then True
    else if i.op = some .fbreg then
      (∀ x ∈ st.stack, x = fb) ∧ st.tosState ≠ .implicitPointer ∧
        ∀ st', evalInstr ctx st i = .ok st' → NoFbregRuns ctx rest st'
    else ∀ st', evalInstr ctx st i = .ok st' → AddsOnce ctx fb rest st'

/-- A stack with more below, and the same answer to whether it is an implicit pointer. -/
structure Padded (below : List (BitVec 64)) (st st' : EvalState) : Prop where
  stack : st'.stack = st.stack ++ below
  implicitPointer : st.tosState = .implicitPointer ↔ st'.tosState = .implicitPointer

section Operations

variable {ctx : EvalContext} {i : ExprInstr} {st st' st₁ : EvalState} {below : List (BitVec 64)}

/-- The second state does what the first does, and stays above the same words. -/
def Follows (below : List (BitVec 64)) (r r' : Except Fault EvalState) : Prop :=
  ∀ st₁, r = .ok st₁ → ∃ st₁', r' = .ok st₁' ∧ Padded below st₁ st₁'

theorem Follows.error {e : Fault} {r' : Except Fault EvalState} :
    Follows below (.error e) r' := fun _ h => nomatch h

theorem Follows.ok (h : Padded below st st') : Follows below (.ok st) (.ok st') := by
  intro st₁ hst₁
  obtain rfl := Except.ok.inj hst₁
  exact ⟨st', rfl, h⟩

theorem Padded.push (h : Padded below st st') (x : BitVec 64) :
    Padded below (st.push x) (st'.push x) where
  stack := by simp [EvalState.push, h.stack]
  implicitPointer := Iff.rfl

theorem Padded.morestack (h : Padded below st st') : Padded below st.morestack st'.morestack where
  stack := by simp [EvalState.morestack, h.stack]
  implicitPointer := Iff.rfl

theorem Padded.index (h : Padded below st st') {n x : BitVec 64} (hx : st.index n = .ok x) :
    st'.index n = .ok x := by
  rw [EvalState.index] at hx ⊢
  rcases Nat.lt_or_ge (n.setWidth 32).toNat st.stack.length with hlt | hge
  · rw [List.getElem?_eq_getElem hlt] at hx
    rw [h.stack, List.getElem?_append_left hlt, List.getElem?_eq_getElem hlt]
    exact hx
  · rw [List.getElem?_eq_none hge] at hx
    cases hx

theorem Padded.indexed (h : Padded below st st') {n : BitVec 64} {f f' : BitVec 64 → EvalState}
    (hf : ∀ x, st.index n = .ok x → Padded below (f x) (f' x)) :
    Follows below (do let tmp ← st.index n; return f tmp)
      (do let tmp ← st'.index n; return f' tmp) := by
  intro st₁ hst₁
  obtain ⟨x, hx, hst₁⟩ := bind_eq_ok.1 hst₁
  obtain rfl := Except.ok.inj hst₁
  rw [h.index hx]
  exact ⟨_, rfl, hf x hx⟩

theorem Padded.unary (h : Padded below st st') (f : BitVec 64 → Except Fault (BitVec 64)) :
    Follows below (st.unary f) (st'.unary f) := by
  rw [EvalState.unary, EvalState.unary, h.stack]
  cases hs : st.stack with
  | nil => exact Follows.error
  | cons x rest =>
    dsimp only [List.cons_append]
    cases f x with
    | error e => exact Follows.error
    | ok y => exact Follows.ok ⟨rfl, h.implicitPointer⟩

theorem Padded.binary (h : Padded below st st')
    (f : BitVec 64 → BitVec 64 → Except Fault (BitVec 64)) :
    Follows below (st.binary f) (st'.binary f) := by
  rw [EvalState.binary, EvalState.binary, h.stack]
  rcases hs : st.stack with _ | ⟨x, _ | ⟨y, rest⟩⟩
  · exact Follows.error
  · exact Follows.error
  · dsimp only [List.cons_append]
    cases f x y with
    | error e => exact Follows.error
    | ok z => exact Follows.ok ⟨rfl, Iff.rfl⟩

/-- An operation that pushes what the context has. -/
theorem follows_context {r : Except Fault (BitVec 64)} {f f' : BitVec 64 → EvalState}
    (hf : ∀ b, Padded below (f b) (f' b)) :
    Follows below (do let b ← r; return f b) (do let b ← r; return f' b) := by
  cases r with
  | error e => exact Follows.error
  | ok b => exact Follows.ok (hf b)

/-- **Every operation runs on a stack with more below as it does without.** -/
theorem evalOp_padded (h : Padded below st st') (op : DwOp) :
    Follows below (evalOp ctx i st op) (evalOp ctx i st' op) := by
  cases op
  case addr | const1u | const1s | const2u | const2s | const4u | const4s | const8u | const8s
    | constu | consts => exact Follows.ok (h.push _)
  case deref | derefSize => exact Follows.error
  case xderef | xderefSize =>
    rw [evalOp]
    split_ifs <;> exact Follows.error
  case dup | «over» | pick => exact h.indexed fun x _ => h.push x
  case drop =>
    refine h.indexed fun x hx => ⟨?_, Iff.rfl⟩
    rw [EvalState.index] at hx
    cases hs : st.stack with
    | nil =>
      rw [hs] at hx
      cases hx
    | cons y rest =>
      show st'.stack.tail = (y :: rest).tail ++ below
      rw [h.stack, hs]
      rfl
  case swap =>
    rw [evalOp, evalOp, h.stack]
    rcases hs : st.stack with _ | ⟨x, _ | ⟨y, rest⟩⟩
    · exact Follows.error
    · exact Follows.error
    · exact Follows.ok ⟨rfl, h.implicitPointer⟩
  case rot =>
    rw [evalOp, evalOp, h.stack]
    rcases hs : st.stack with _ | ⟨x, _ | ⟨y, _ | ⟨z, rest⟩⟩⟩
    · exact Follows.error
    · exact Follows.error
    · exact Follows.error
    · exact Follows.ok ⟨rfl, h.implicitPointer⟩
  case abs | neg | not | plusUconst => exact h.unary _
  case and | or | xor | plus | minus | mul | div | mod | shl | shr | shra
    | eq | ge | gt | le | lt | ne => exact h.binary _
  case lit => exact Follows.ok (h.morestack.push _)
  case breg | bregx => exact follows_context fun b => h.morestack.push _
  case fbreg | callFrameCfa =>
    exact follows_context fun b => ⟨by simp [h.stack], h.implicitPointer⟩
  case nop | piece => exact Follows.ok h
  case reg | regx | stackValue | gnuImplicitPointer => exact Follows.ok ⟨h.stack, Iff.rfl⟩

theorem evalInstr_padded (h : Padded below st st') :
    Follows below (evalInstr ctx st i) (evalInstr ctx st' i) := by
  rw [evalInstr, evalInstr]
  cases i.op with
  | none => exact Follows.error
  | some op => exact evalOp_padded h op

end Operations

section Runs

variable {ctx : EvalContext} {regs : Option (ℤ → BitVec 64)} {fb vaddr : BitVec 64}

theorem op_eq_fbreg_iff {i : ExprInstr} :
    i.op = some .fbreg ↔ i.lrAtom = DwOp.fbreg.atom := by
  have hall : ∀ a : BitVec 8, DwOp.ofAtom a = some .fbreg ↔ a = DwOp.fbreg.atom := by decide
  exact hall i.lrAtom

theorem additiveInstrs_cons_of_ne {i : ExprInstr} (h : i.op ≠ some .fbreg)
    (rest : List ExprInstr) : additiveInstrs (i :: rest) = i :: additiveInstrs rest := by
  rw [additiveInstrs, if_neg fun hatom => h (op_eq_fbreg_iff.2 hatom)]

/-- A run of the loop that is followed by one above other words. -/
def LoopFollows (ctx : EvalContext) (l l' : List ExprInstr) (st st' : EvalState) : Prop :=
  ∀ st₁ rest, evalLoop ctx l st = .ok (st₁, rest) → ∃ below st₁' rest',
    evalLoop ctx l' st' = .ok (st₁', rest') ∧ Padded below st₁ st₁'

theorem LoopFollows.nil {below : List (BitVec 64)} {st st' : EvalState}
    (h : Padded below st st') : LoopFollows ctx [] [] st st' := by
  intro st₁ rest hloop
  obtain ⟨rfl, -⟩ := Prod.mk.inj (Except.ok.inj hloop)
  exact ⟨below, st', [], rfl, h⟩

theorem LoopFollows.piece {i : ExprInstr} (hi : i.op = some .piece) {l l' : List ExprInstr}
    {below : List (BitVec 64)} {st st' : EvalState} (h : Padded below st st') :
    LoopFollows ctx (i :: l) (i :: l') st st' := by
  intro st₁ rest hloop
  rw [evalLoop, if_pos hi] at hloop
  obtain ⟨rfl, -⟩ := Prod.mk.inj (Except.ok.inj hloop)
  exact ⟨below, st', l', by rw [evalLoop, if_pos hi], h⟩

/-- The step over one operation that both expressions have. -/
theorem LoopFollows.cons {i : ExprInstr} (hi : i.op ≠ some .piece) {l l' : List ExprInstr}
    {below : List (BitVec 64)} {st st' : EvalState} (h : Padded below st st')
    (hrest : ∀ st₁ st₁', evalInstr ctx st i = .ok st₁ → Padded below st₁ st₁' →
      LoopFollows ctx l l' st₁ st₁') : LoopFollows ctx (i :: l) (i :: l') st st' := by
  intro st₂ rest hloop
  rw [evalLoop, if_neg hi] at hloop
  obtain ⟨st₁, hst₁, hloop⟩ := bind_eq_ok.1 hloop
  obtain ⟨st₁', hst₁', hpadded⟩ := evalInstr_padded h st₁ hst₁
  rw [evalLoop, if_neg hi, hst₁', ok_bind]
  exact hrest st₁ st₁' hst₁ hpadded st₂ rest hloop

/-- Where no `DW_OP_fbreg` runs, nothing that runs is rewritten. -/
theorem loopFollows_of_noFbregRuns {l : List ExprInstr} {below : List (BitVec 64)}
    {st st' : EvalState} (h : NoFbregRuns ctx l st) (hst : Padded below st st') :
    LoopFollows ctx l (additiveInstrs l) st st' := by
  induction l generalizing st st' with
  | nil => exact LoopFollows.nil hst
  | cons i l ih =>
    by_cases hi : i.op = some .piece
    · rw [additiveInstrs_cons_of_ne (by rw [hi]; decide)]
      exact LoopFollows.piece hi hst
    · rw [NoFbregRuns, if_neg hi] at h
      rw [additiveInstrs_cons_of_ne h.1]
      exact LoopFollows.cons hi hst fun st₁ st₁' hstep hst₁ => ih (h.2 st₁ hstep) hst₁

/-- Where the stack holds nothing but frame bases, one more below is one more on top. -/
theorem append_eq_cons_of_all {s : List (BitVec 64)} (h : ∀ x ∈ s, x = fb) :
    s ++ [fb] = fb :: s := by
  rw [List.eq_replicate_of_mem h, ← List.replicate_succ', List.replicate_succ]

/-- **Up to its one `DW_OP_fbreg` the rewritten expression runs above the frame base, and then on
the same stack.** -/
theorem loopFollows_of_addsOnce {l : List ExprInstr} {st st' : EvalState}
    (h : AddsOnce ⟨regs, some fb⟩ fb l st) (hst : Padded [fb] st st') :
    LoopFollows ⟨regs, some fb⟩ l (additiveInstrs l) st st' := by
  induction l generalizing st st' with
  | nil => exact LoopFollows.nil hst
  | cons i l ih =>
    rw [AddsOnce] at h
    by_cases hi : i.op = some .piece
    · rw [additiveInstrs_cons_of_ne (by rw [hi]; decide)]
      exact LoopFollows.piece hi hst
    rw [if_neg hi] at h
    by_cases hfbreg : i.op = some .fbreg
    · rw [if_pos hfbreg] at h
      obtain ⟨hall, himplicit, hrest⟩ := h
      have hstack : st'.stack = fb :: st.stack := by
        rw [hst.stack, append_eq_cons_of_all hall]
      -- what the operation leaves, and what the two in its place leave
      have hstep : Padded [] { st with stack := (fb + i.lrNumber) :: st.stack }
          { st' with stack := (i.lrNumber + fb) :: st.stack, tosState := .address } := by
        refine ⟨?_, iff_of_false himplicit (by rintro ⟨⟩)⟩
        show _ = (fb + i.lrNumber) :: st.stack ++ []
        rw [List.append_nil, BitVec.add_comm]
      intro st₁ rest hloop
      rw [evalLoop, if_neg hi, evalInstr_of_op hfbreg] at hloop
      obtain ⟨below, st₁', rest', hloop', hst₁⟩ :=
        loopFollows_of_noFbregRuns (hrest _ (evalInstr_of_op hfbreg _ st)) hstep st₁ rest hloop
      refine ⟨below, st₁', rest', ?_, hst₁⟩
      have hconsts : ({ i with lrAtom := DwOp.consts.atom } : ExprInstr).op = some .consts :=
        DwOp.ofAtom_atom _
      have hplus := DwOp.instr_op .plus 0 0
      rw [additiveInstrs, if_pos (op_eq_fbreg_iff.1 hfbreg), evalLoop,
        if_neg (by rw [hconsts]; decide), evalInstr_of_op hconsts, evalOp, ok_bind, evalLoop,
        if_neg (by rw [hplus]; decide), evalInstr_of_op hplus, evalOp, EvalState.binary,
        EvalState.push, hstack]
      exact hloop'
    · rw [if_neg hfbreg] at h
      rw [additiveInstrs_cons_of_ne hfbreg]
      exact LoopFollows.cons hi hst fun st₁ st₁' hstep hst₁ => ih (h st₁ hstep) hst₁

/-- The top of a stack stays the top with more below. -/
theorem Padded.tos {below : List (BitVec 64)} {e e' : Evaluator} (h : Padded below e.st e'.st)
    {x : BitVec 64} (hx : e.tos = .ok x) : e'.tos = .ok x := by
  rw [Evaluator.tos_eq] at hx ⊢
  by_cases himplicit : e.st.tosState = .implicitPointer
  · rw [if_pos himplicit] at hx
    rw [if_pos (h.implicitPointer.1 himplicit)]
    exact hx
  · rw [if_neg himplicit] at hx
    rw [if_neg fun h' => himplicit (h.implicitPointer.2 h'), h.stack]
    cases hs : e.st.stack with
    | nil =>
      rw [hs] at hx
      cases hx
    | cons y rest =>
      rw [hs] at hx
      exact hx

/-- The frame base is all that is below at the start. -/
theorem padded_start (fb : BitVec 64) : Padded [fb] (.start []) (.start [fb]) := ⟨rfl, Iff.rfl⟩

theorem evaluator_tos_additive {l : List ExprInstr} {x : BitVec 64}
    (h : AddsOnce ⟨regs, some fb⟩ fb l (.start []))
    (hx : (do let e ← evaluator ⟨regs, some fb⟩ l []; e.tos) = .ok x) :
    (do let e ← evaluator ⟨regs, some fb⟩ (additiveInstrs l) [fb]; e.tos) = .ok x := by
  obtain ⟨e, he, hx⟩ := bind_eq_ok.1 hx
  rw [evaluator_eq] at he ⊢
  obtain ⟨⟨st, rest⟩, hloop, he⟩ := bind_eq_ok.1 he
  obtain rfl := Except.ok.inj he
  obtain ⟨below, st', rest', hloop', hst⟩ :=
    loopFollows_of_addsOnce h (padded_start fb) st rest hloop
  rw [hloop']
  show Evaluator.tos ⟨additiveInstrs l, rest', st'⟩ = .ok x
  exact hst.tos hx

/-- The entry for an address stays at its place. -/
theorem selectLocExpr_additive (base : BitVec 64) (l : List LocExpr) :
    selectLocExpr vaddr base (absoluteLoclistToAdditiveLoclist l) =
      (selectLocExpr vaddr base l).map LocExpr.additive := by
  induction l generalizing base with
  | nil => rfl
  | cons e l ih =>
    have hbase : e.additive.IsBaseSelection ↔ e.IsBaseSelection := Iff.rfl
    have happlies : e.additive.AppliesAt base vaddr ↔ e.AppliesAt base vaddr := Iff.rfl
    rw [absoluteLoclistToAdditiveLoclist, List.map_cons, selectLocExpr, selectLocExpr]
    simp only [hbase, happlies]
    split_ifs
    · exact ih e.hipc
    · rfl
    · exact ih base

/-- **The intervals stay, and so does the top of the stack at an address whose expression, if it
can be evaluated, runs `DW_OP_fbreg` once at most, before anything but frame bases is on the
stack.** -/
theorem absoluteLoclistToAdditiveLoclist_preserves {l : List LocExpr}
    (h : ∀ e x, selectLocExpr vaddr 0 l = some e → loclistTos ⟨regs, some fb⟩ l vaddr [] = .ok x →
      AddsOnce ⟨regs, some fb⟩ fb e.instrs (.start [])) :
    (absoluteLoclistToAdditiveLoclist l).map (fun e => (e.lopc, e.hipc)) =
      l.map (fun e => (e.lopc, e.hipc)) ∧ PreservesTos regs fb vaddr l := by
  refine ⟨by rw [absoluteLoclistToAdditiveLoclist, List.map_map]; rfl, fun x htos => ?_⟩
  obtain ⟨ev, hev, hx⟩ := bind_eq_ok.1 htos
  rw [loclistEvaluator] at hev
  obtain ⟨⟨⟩, hsane, hev⟩ := bind_eq_ok.1 hev
  rw [loclistTos, loclistEvaluator, hsane, ok_bind, selectLocExpr_additive]
  cases hselect : selectLocExpr vaddr 0 l with
  | none =>
    rw [hselect] at hev
    cases hev
  | some e =>
    rw [hselect] at hev
    exact evaluator_tos_additive (h e x hselect htos) (bind_eq_ok.2 ⟨ev, hev, hx⟩)

end Runs

/-- A local variable at eight bytes from the frame base. -/
def frameLoclist : List LocExpr := [⟨[DwOp.fbreg.instr 8], 0, 0⟩]

theorem frameLoclist_preserves :
    (absoluteLoclistToAdditiveLoclist frameLoclist).map (fun e => (e.lopc, e.hipc)) =
      frameLoclist.map (fun e => (e.lopc, e.hipc)) ∧
        PreservesTos none 0x7000 0x1000 frameLoclist := by
  refine absoluteLoclistToAdditiveLoclist_preserves fun e _ he _ => ?_
  obtain rfl := Option.some.inj he
  exact ⟨fun x hx => absurd hx List.not_mem_nil, by decide, fun _ _ => trivial⟩

/-- The second `DW_OP_fbreg` adds to the sum that the first left. -/
theorem not_preservesTos : ¬∀ regs fb vaddr l, PreservesTos regs fb vaddr l := by
  intro h
  have hx := h none 0x7000 0x1000 [⟨[DwOp.fbreg.instr 8, DwOp.fbreg.instr 16], 0, 0⟩] 0x7010
    (by decide +kernel)
  revert hx
  decide +kernel

end Expr
end Dwarfpp
