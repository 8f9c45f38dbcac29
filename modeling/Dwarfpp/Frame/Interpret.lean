/-
# The interpreter of call-frame instructions

`FrameSection::interpret_instructions` and `Fde::decode` of `src/frame.cpp`.
The interpreter walks the decoded instructions with a current row, its start
address and a stack of remembered rows; every advance of the location adds the
current row to the row map.  `Fde::decode` runs it on the initial instructions
of the CIE and then, from the state they leave, on those of the FDE.

The value of `DW_FRAME_CFA_COL3` and the parser of expression blocks
(`Locdesc::try_construct`) belong to libdwarf; they are fields of `FrameSection`.
-/

import Dwarfpp.Frame.InstrList
import Dwarfpp.Frame.Rows

namespace Dwarfpp
namespace Frame

open Lib Dwarfpp.Expr

/-- The fields of a CIE that decoding reads. -/
structure Cie where
  codeAlignmentFactor : BitVec 64
  dataAlignmentFactor : BitVec 64
  addressSize : ℕ
  initialInstructions : ℕ
  initialInstructionsLength : ℕ

/-- The fields of an FDE that decoding reads. -/
structure Fde where
  cie : Cie
  lowPc : BitVec 64
  funcLength : BitVec 64
  instrBytesBegin : ℕ
  instrBytesLength : ℕ

/-- The section the FDEs lie in, and what decoding takes from the host and libdwarf. -/
structure FrameSection where
  mem : Memory
  hostBig : Bool
  cfaColumn : ℤ
  tryConstruct : List Byte → Option LocExpr

/-- The value a 64-bit field has as `int`. -/
def toInt32 (w : BitVec 64) : ℤ := (w.setWidth 32).toInt

/-- The working state: the result under construction and the remembered rows. -/
structure InterpState where
  result : InstrsResults
  rememberedRowDefs : List Row

section Step

variable (fs : FrameSection) (st : InterpState)

/-- `current_row_defs`. -/
def InterpState.row : Row := st.result.unfinishedRow

/-- `current_row_addr`. -/
def InterpState.addr : BitVec 64 := st.result.unfinishedRowAddr

/-- `current_row_defs[reg] = d`. -/
def InterpState.set (reg : ℤ) (d : RegisterDef) : InterpState :=
  { st with result := { st.result with unfinishedRow := st.row.insert reg d } }

/-- Label `add_new_row`. -/
def addNewRow (newRowAddr : BitVec 64) : Except Fault InterpState := do
  assert (st.addr < newRowAddr)
  return { st with result :=
    { st.result with
      rows := st.result.rows.add st.addr.toNat newRowAddr.toNat st.row.entries
      unfinishedRowAddr := newRowAddr } }

/-- `loc_expr(dbg, instrs, len)`. -/
def makeLocExpr (op : FrameOp) : Except Fault LocExpr :=
  match fs.tryConstruct (slice fs.mem op.fpExprBlock op.fpOffsetOrBlockLen.toNat) with
  | some e => .ok e
  | none => .error .assertFailed

/-- The body of `DW_CFA_restore` and `DW_CFA_restore_extended`. -/
def restoreRegister (initial : Option InstrsResults) (reg : ℤ) : Except Fault InterpState := do
  match initial with
  | none => .error .assertFailed
  | some initial =>
    match initial.unfinishedRow.find reg with
    | some d => return st.set reg d
    | none =>
      match findEntry reg (initial.rows.find st.addr.toNat) with
      | some d => return st.set reg d
      | none => return st.set reg default

/-- The body of `DW_CFA_def_cfa_register`, `DW_CFA_def_cfa_offset` and
`DW_CFA_def_cfa_offset_sf`: one half of the CFA rule is replaced. -/
def updateCfa (f : ℤ × ℤ → ℤ × ℤ) : Except Fault InterpState := do
  assert ((st.row.find fs.cfaColumn).isSome)
  let d := Row.get st.row fs.cfaColumn
  return st.set fs.cfaColumn (d.registerPlusOffsetW (f d.value.mRegisterPlusOffset))

/-- One iteration of the loop. -/
def interpretInstr (initial : Option InstrsResults) (op : FrameOp) : Except Fault InterpState :=
  let reg : ℤ := op.fpRegister.toNat
  let off := toInt32 op.fpOffsetOrBlockLen
  match CfaOpcode.ofCode op.opcode with
  | some .setLoc => addNewRow st op.fpOffsetOrBlockLen
  | some .advanceLoc | some .advanceLoc1 | some .advanceLoc2 | some .advanceLoc4 =>
    addNewRow st (st.addr + op.fpOffsetOrBlockLen)
  | some .defCfa | some .defCfaSf =>
    .ok (st.set fs.cfaColumn ((Row.get st.row fs.cfaColumn).registerPlusOffsetW (reg, off)))
  | some .defCfaRegister => updateCfa fs st fun v => (reg, v.2)
  | some .defCfaOffset | some .defCfaOffsetSf => updateCfa fs st fun v => (v.1, off)
  | some .defCfaExpression => do
    let e ← makeLocExpr fs op
    return st.set fs.cfaColumn ((Row.get st.row fs.cfaColumn).savedAtExprW e)
  | some .undefined => .ok (st.set reg (Row.get st.row reg).undefinedW)
  | some .sameValue => .ok (st.set reg (Row.get st.row reg).sameValueW)
  | some .offset | some .offsetExtended | some .offsetExtendedSf =>
    .ok (st.set reg ((Row.get st.row reg).savedAtOffsetFromCfaW off))
  | some .valOffset | some .valOffsetSf =>
    .ok (st.set reg ((Row.get st.row reg).valIsOffsetFromCfaW off))
  | some .register => .ok (st.set reg ((Row.get st.row reg).registerPlusOffsetW (off, 0)))
  | some .expression => do
    let e ← makeLocExpr fs op
    return st.set reg ((Row.get st.row reg).savedAtExprW e)
  | some .valExpression => do
    let e ← makeLocExpr fs op
    return st.set reg ((Row.get st.row reg).valOfExprW e)
  | some .restore | some .restoreExtended => restoreRegister st initial reg
  | some .restoreState =>
    match st.rememberedRowDefs with
    | [] => .error .assertFailed
    | row :: rest =>
      .ok { result := { st.result with unfinishedRow := row }, rememberedRowDefs := rest }
  | some .rememberState => .ok { st with rememberedRowDefs := st.row :: st.rememberedRowDefs }
  | some .nop | some .gnuArgsSize => .ok st
  | none => .error .assertFailed

end Step

/-- `interpret_instructions`. -/
def interpretInstructions (fs : FrameSection) (fuel : ℕ) (cie : Cie) (initialRowAddr : BitVec 64)
    (instrs instrsLen : ℕ) (initial : Option InstrsResults) : Except Fault InstrsResults := do
  let (instrlist, _) ← frameInstrlist
    { hostBig := fs.hostBig, useHostByteOrder := true, addrlen := cie.addressSize,
      daf := cie.dataAlignmentFactor, mem := fs.mem, limit := instrs + instrsLen } fuel instrs
  let start : InterpState :=
    match initial with
    | some initial => ⟨{ initial with rows := [] }, []⟩
    | none => ⟨⟨[], .empty, initialRowAddr⟩, []⟩
  let final ← instrlist.foldlM (fun st op => interpretInstr fs st initial op) start
  return final.result

/-- `Fde::decode`. -/
def decode (fs : FrameSection) (fuel : ℕ) (fde : Fde) : Except Fault InstrsResults := do
  let initialResult ← interpretInstructions fs fuel fde.cie fde.lowPc fde.cie.initialInstructions
    fde.cie.initialInstructionsLength none
  let finalResult ← interpretInstructions fs fuel fde.cie initialResult.unfinishedRowAddr
    fde.instrBytesBegin fde.instrBytesLength (some initialResult)
  return finalResult.addUnfinishedRow (fde.lowPc + fde.funcLength + 1)

end Frame
end Dwarfpp
