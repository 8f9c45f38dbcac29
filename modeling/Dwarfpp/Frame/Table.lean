/-
# The call-frame table of the DWARF standard

The table that a CIE and an FDE describe, by the rules of DWARF 4, section 6.4:
for every location a rule for the CFA and one for each register.  The location
advances by a delta times the code alignment factor; factored offsets are
multiplied by the data alignment factor; `DW_CFA_restore` gives a register the
rule it had after the initial instructions; `DW_CFA_remember_state` and
`DW_CFA_restore_state` save and reinstate the whole row, last in first out.

`tableAt` walks the instructions and returns the row in force at a location.  It
is `none` on an instruction that is not valid where it stands: a restore in the
initial instructions, a restore of a state that was not remembered, a change of
one half of a CFA rule that is not a register and an offset, a `DW_CFA_set_loc`
that does not increase the location, a block that is not an expression.
-/

import Dwarfpp.Frame.Encoding
import Dwarfpp.Frame.Rows

namespace Dwarfpp
namespace Frame

open Lib Dwarfpp.Expr

/-- A row of the table: the rule for the CFA and those of the registers. -/
structure TableRow where
  cfa : Option Rule
  regs : ℕ → Option Rule

namespace TableRow

def empty : TableRow := ⟨none, fun _ => none⟩

def setReg (row : TableRow) (reg : ℕ) (rule : Option Rule) : TableRow :=
  { row with regs := fun r => if r = reg then rule else row.regs r }

def setCfa (row : TableRow) (rule : Rule) : TableRow := { row with cfa := some rule }

end TableRow

/-- Where the walk stands. -/
structure TableState where
  loc : ℕ
  row : TableRow
  saved : List TableRow

/-- The parameters of the table: the two alignment factors, the row after the
initial instructions (`none` while they run) and the meaning of a block. -/
structure TableContext where
  caf : ℕ
  daf : ℤ
  initial : Option TableRow
  expr : List Byte → Option LocExpr

/-- The effect of one instruction. -/
def tableStep (cx : TableContext) (st : TableState) : CfaInstr → Option TableState
  | .advanceLoc delta | .advanceLoc1 delta | .advanceLoc2 delta | .advanceLoc4 delta =>
    some { st with loc := st.loc + delta * cx.caf }
  | .setLoc addr => if st.loc < addr then some { st with loc := addr } else none
  | .offset reg n | .offsetExtended reg n =>
    some { st with row := st.row.setReg reg (some (.offset (cx.daf * n))) }
  | .offsetExtendedSf reg n =>
    some { st with row := st.row.setReg reg (some (.offset (cx.daf * n))) }
  | .valOffset reg n => some { st with row := st.row.setReg reg (some (.valOffset (cx.daf * n))) }
  | .valOffsetSf reg n => some { st with row := st.row.setReg reg (some (.valOffset (cx.daf * n))) }
  | .restore reg | .restoreExtended reg =>
    cx.initial.map fun initial => { st with row := st.row.setReg reg (initial.regs reg) }
  | .undefined reg => some { st with row := st.row.setReg reg (some .undefined) }
  | .sameValue reg => some { st with row := st.row.setReg reg (some .sameValue) }
  | .register reg reg' => some { st with row := st.row.setReg reg (some (.register reg' 0)) }
  | .expression reg block =>
    (cx.expr block).map fun e => { st with row := st.row.setReg reg (some (.expression e)) }
  | .valExpression reg block =>
    (cx.expr block).map fun e => { st with row := st.row.setReg reg (some (.valExpression e)) }
  | .rememberState => some { st with saved := st.row :: st.saved }
  | .restoreState =>
    match st.saved with
    | [] => none
    | row :: saved => some { st with row := row, saved := saved }
  | .defCfa reg off => some { st with row := st.row.setCfa (.register reg off) }
  | .defCfaSf reg n => some { st with row := st.row.setCfa (.register reg (cx.daf * n)) }
  | .defCfaRegister reg =>
    match st.row.cfa with
    | some (.register _ off) => some { st with row := st.row.setCfa (.register reg off) }
    | _ => none
  | .defCfaOffset off =>
    match st.row.cfa with
    | some (.register reg _) => some { st with row := st.row.setCfa (.register reg off) }
    | _ => none
  | .defCfaOffsetSf n =>
    match st.row.cfa with
    | some (.register reg _) => some { st with row := st.row.setCfa (.register reg (cx.daf * n)) }
    | _ => none
  | .defCfaExpression block =>
    (cx.expr block).map fun e => { st with row := st.row.setCfa (.expression e) }
  | .gnuArgsSize _ | .nop => some st

/-- The state after a list of instructions. -/
def tableRun (cx : TableContext) (st : TableState) (is : List CfaInstr) : Option TableState :=
  is.foldlM (tableStep cx) st

/-- The row in force at `pc`: the one held when the location passes `pc`, or at the end. -/
def tableAt (cx : TableContext) (pc : ℕ) : List CfaInstr → TableState → Option TableRow
  | [], st => some st.row
  | i :: is, st =>
    match tableStep cx st i with
    | none => none
    | some st' => if pc < st'.loc then some st.row else tableAt cx pc is st'

/-- The table of an FDE at `pc`: the initial instructions from an empty row, then
those of the FDE. -/
def fdeTableAt (caf : ℕ) (daf : ℤ) (expr : List Byte → Option LocExpr) (lowPc : ℕ)
    (initialInstrs instrs : List CfaInstr) (pc : ℕ) : Option TableRow := do
  let st ← tableRun ⟨caf, daf, none, expr⟩ ⟨lowPc, .empty, []⟩ initialInstrs
  tableAt ⟨caf, daf, some st.row, expr⟩ pc instrs ⟨st.loc, st.row, []⟩

/-- The rules found in the values of a row map are those of a row of the table; the
CFA is under `cfaColumn`. -/
def RowMatches (cfaColumn : ℤ) (entries : List (ℤ × RegisterDef)) (row : TableRow) : Prop :=
  ruleIn entries cfaColumn = row.cfa ∧
    ∀ reg : ℕ, (reg : ℤ) ≠ cfaColumn → ruleIn entries reg = row.regs reg

theorem RowMatches.setReg {col : ℤ} {row : Row} {trow : TableRow} {reg : ℕ} {d : RegisterDef}
    {rule : Option Rule} (h : RowMatches col row.entries trow) (hreg : (reg : ℤ) ≠ col)
    (hd : d.rule = rule) : RowMatches col (row.insert reg d).entries (trow.setReg reg rule) := by
  refine ⟨?_, fun r hr => ?_⟩
  · rw [ruleIn_insert, if_neg hreg.symm]
    exact h.1
  · rw [ruleIn_insert, hd, h.2 r hr]
    simp only [TableRow.setReg, Nat.cast_inj]

theorem RowMatches.setCfa {col : ℤ} {row : Row} {trow : TableRow} {d : RegisterDef} {rule : Rule}
    (h : RowMatches col row.entries trow) (hd : d.rule = some rule) :
    RowMatches col (row.insert col d).entries (trow.setCfa rule) := by
  refine ⟨?_, fun r hr => ?_⟩
  · rw [ruleIn_insert, if_pos rfl, hd]
    rfl
  · rw [ruleIn_insert, if_neg hr]
    exact h.2 r hr

end Frame
end Dwarfpp
