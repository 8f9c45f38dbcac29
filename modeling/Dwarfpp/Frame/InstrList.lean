/-
# The call-frame instruction decoder

`frame_instrlist::frame_instrlist` of `src/frame.cpp`, on the record `frame_op`
of `include/dwarfpp/libdwarf.hpp`.

The top two bits of the first byte are the base opcode; when they are clear the
byte itself is the opcode.  The operands follow in the forms that the labels of
the `switch` name (`uleb128_register_only`, …).  A register goes to a 16-bit
field, an offset or block length to a 64-bit one, a block is recorded by its
address and skipped.
-/

import Dwarfpp.Frame.Readers

namespace Dwarfpp
namespace Frame

open Lib

/-- The opcodes the decoder knows. -/
inductive CfaOpcode
  | nop | setLoc | advanceLoc1 | advanceLoc2 | advanceLoc4 | offsetExtended | restoreExtended
  | undefined | sameValue | register | rememberState | restoreState | defCfa | defCfaRegister
  | defCfaOffset | defCfaExpression | expression | offsetExtendedSf | defCfaSf | defCfaOffsetSf
  | valOffset | valOffsetSf | valExpression | gnuArgsSize | advanceLoc | offset | restore
  deriving DecidableEq, Repr

namespace CfaOpcode

/-- The value of `DW_CFA_*`. -/
def code : CfaOpcode → Byte
  | nop => 0x00
  | setLoc => 0x01
  | advanceLoc1 => 0x02
  | advanceLoc2 => 0x03
  | advanceLoc4 => 0x04
  | offsetExtended => 0x05
  | restoreExtended => 0x06
  | undefined => 0x07
  | sameValue => 0x08
  | register => 0x09
  | rememberState => 0x0a
  | restoreState => 0x0b
  | defCfa => 0x0c
  | defCfaRegister => 0x0d
  | defCfaOffset => 0x0e
  | defCfaExpression => 0x0f
  | expression => 0x10
  | offsetExtendedSf => 0x11
  | defCfaSf => 0x12
  | defCfaOffsetSf => 0x13
  | valOffset => 0x14
  | valOffsetSf => 0x15
  | valExpression => 0x16
  | gnuArgsSize => 0x2e
  | advanceLoc => 0x40
  | offset => 0x80
  | restore => 0xc0

/-- Every opcode, in the order of its code. -/
def all : List CfaOpcode :=
  [nop, setLoc, advanceLoc1, advanceLoc2, advanceLoc4, offsetExtended, restoreExtended, undefined,
    sameValue, register, rememberState, restoreState, defCfa, defCfaRegister, defCfaOffset,
    defCfaExpression, expression, offsetExtendedSf, defCfaSf, defCfaOffsetSf, valOffset,
    valOffsetSf, valExpression, gnuArgsSize, advanceLoc, offset, restore]

/-- The `switch` on an opcode value: `none` is its `default`. -/
def ofCode (b : Byte) : Option CfaOpcode := all.find? fun c => c.code = b

@[simp] theorem ofCode_code (c : CfaOpcode) : ofCode c.code = some c := by
  cases c <;> decide

end CfaOpcode

/-- `struct frame_op`.  A null `fp_expr_block` is address `0`. -/
structure FrameOp where
  fpBaseOp : Byte
  fpExtendedOp : Byte
  fpRegister : BitVec 16
  fpOffsetOrBlockLen : BitVec 64
  fpExprBlock : ℕ
  fpInstrOffset : BitVec 64
  deriving DecidableEq, Repr

/-- `fp_base_op << 6 | fp_extended_op`. -/
def FrameOp.opcode (op : FrameOp) : Byte := op.fpBaseOp <<< 6 ||| op.fpExtendedOp

/-- What the decoder is given: the byte order of the host, the arguments
`use_host_byte_order` and `addrlen`, the data alignment factor of the CIE, the
memory and the end of the block. -/
structure DecodeInput where
  hostBig : Bool
  useHostByteOrder : Bool
  addrlen : ℕ
  daf : BitVec 64
  mem : Memory
  limit : ℕ

/-- The product of two `Dwarf_Signed`. -/
def mulSigned (a b : BitVec 64) : Except Fault (BitVec 64) :=
  if -2 ^ 63 ≤ a.toInt * b.toInt ∧ a.toInt * b.toInt < 2 ^ 63 then
    .ok (BitVec.ofInt 64 (a.toInt * b.toInt))
  else .error .undefinedBehaviour

/-- `opcode_from_byte`. -/
def opcodeFromByte (b : Byte) : Byte := if b &&& 0xc0 ≠ 0 then b &&& 0xc0 else b

/-- The record a first byte gives before its operands are read. -/
def FrameOp.ofByte (b : Byte) : FrameOp where
  fpBaseOp := b >>> 6
  fpExtendedOp := if b >>> 6 = 0 then b &&& 0x3f else 0
  fpRegister := 0
  fpOffsetOrBlockLen := 0
  fpExprBlock := 0
  fpInstrOffset := 0

section Operands

variable (inp : DecodeInput) (decoded : FrameOp) (pos : ℕ)

/-- Label `uleb128_register_only`. -/
def uleb128RegisterOnly : Except Fault (FrameOp × ℕ) := do
  let (reg, pos) ← readUleb128 inp.mem pos inp.limit
  return ({ decoded with fpRegister := reg.setWidth 16 }, pos)

/-- Label `uleb128_register_and_factored_offset`: a signed times an unsigned
number, which C++ multiplies as unsigned. -/
def uleb128RegisterAndFactoredOffset : Except Fault (FrameOp × ℕ) := do
  let (reg, pos) ← readUleb128 inp.mem pos inp.limit
  let (off, pos) ← readUleb128 inp.mem pos inp.limit
  return ({ decoded with fpRegister := reg.setWidth 16, fpOffsetOrBlockLen := inp.daf * off }, pos)

/-- Label `uleb128_register_and_offset`. -/
def uleb128RegisterAndOffset : Except Fault (FrameOp × ℕ) := do
  let (reg, pos) ← readUleb128 inp.mem pos inp.limit
  let (off, pos) ← readUleb128 inp.mem pos inp.limit
  return ({ decoded with fpRegister := reg.setWidth 16, fpOffsetOrBlockLen := off }, pos)

/-- Label `uleb128_register_sleb128_offset`: a product of two signed numbers. -/
def uleb128RegisterSleb128Offset : Except Fault (FrameOp × ℕ) := do
  let (reg, pos) ← readUleb128 inp.mem pos inp.limit
  let (off, pos) ← readSleb128 inp.mem pos inp.limit
  let product ← mulSigned inp.daf off
  return ({ decoded with fpRegister := reg.setWidth 16, fpOffsetOrBlockLen := product }, pos)

/-- Label `uleb128_offset_only`. -/
def uleb128OffsetOnly : Except Fault (FrameOp × ℕ) := do
  let (off, pos) ← readUleb128 inp.mem pos inp.limit
  return ({ decoded with fpOffsetOrBlockLen := off }, pos)

/-- Label `sleb128_offset_only`. -/
def sleb128OffsetOnly : Except Fault (FrameOp × ℕ) := do
  let (off, pos) ← readSleb128 inp.mem pos inp.limit
  let product ← mulSigned inp.daf off
  return ({ decoded with fpOffsetOrBlockLen := product }, pos)

/-- The body of `DW_CFA_def_cfa_expression`: the length of a block, its address,
and the skip over it, in 64-bit pointer arithmetic. -/
def uleb128Block : Except Fault (FrameOp × ℕ) := do
  let (len, pos) ← readUleb128 inp.mem pos inp.limit
  return ({ decoded with fpOffsetOrBlockLen := len, fpExprBlock := pos },
    (pos + len.toNat) % 2 ^ 64)

/-- The body of `DW_CFA_expression` and `DW_CFA_val_expression`. -/
def uleb128RegisterAndBlock : Except Fault (FrameOp × ℕ) := do
  let (reg, pos) ← readUleb128 inp.mem pos inp.limit
  uleb128Block inp { decoded with fpRegister := reg.setWidth 16 } pos

/-- The body of `DW_CFA_offset`, whose register is in the opcode byte. -/
def packedRegisterAndFactoredOffset (b : Byte) : Except Fault (FrameOp × ℕ) := do
  let (off, pos) ← readUleb128 inp.mem pos inp.limit
  let product := inp.daf * off
  assert (inp.daf.toInt < 0 → product.toInt ≤ 0)
  return ({ decoded with fpRegister := (b &&& 0x3f).setWidth 16, fpOffsetOrBlockLen := product },
    pos)

/-- The fixed-width operands of `DW_CFA_advance_loc2` and `DW_CFA_advance_loc4`. -/
def fixedOffset (le be : Memory → ℕ → ℕ → Except Fault (BitVec 64 × ℕ)) :
    Except Fault (FrameOp × ℕ) := do
  let (off, pos) ←
    if xor inp.hostBig inp.useHostByteOrder then le inp.mem pos inp.limit
    else be inp.mem pos inp.limit
  return ({ decoded with fpOffsetOrBlockLen := off }, pos)

end Operands

/-- One iteration of the loop: the opcode byte at `pos` and its operands. -/
def decodeInstr (inp : DecodeInput) (pos : ℕ) : Except Fault (FrameOp × ℕ) :=
  let b := inp.mem pos
  let decoded := FrameOp.ofByte b
  let pos := pos + 1
  match CfaOpcode.ofCode (opcodeFromByte b) with
  | some .advanceLoc => .ok ({ decoded with fpOffsetOrBlockLen := (b &&& 0x3f).setWidth 64 }, pos)
  | some .offset => packedRegisterAndFactoredOffset inp decoded pos b
  | some .restore => .ok ({ decoded with fpRegister := (b &&& 0x3f).setWidth 16 }, pos)
  | some .nop | some .rememberState | some .restoreState => .ok (decoded, pos)
  | some .setLoc => do
    let (addr, pos) ← readAddr inp.hostBig inp.addrlen inp.mem pos inp.limit inp.useHostByteOrder
    return ({ decoded with fpOffsetOrBlockLen := addr }, pos)
  | some .advanceLoc1 =>
    .ok ({ decoded with fpOffsetOrBlockLen := (inp.mem pos).setWidth 64 }, pos + 1)
  | some .advanceLoc2 => fixedOffset inp decoded pos read2byteLe read2byteBe
  | some .advanceLoc4 => fixedOffset inp decoded pos read4byteLe read4byteBe
  | some .restoreExtended | some .undefined | some .sameValue | some .defCfaRegister =>
    uleb128RegisterOnly inp decoded pos
  | some .offsetExtended => uleb128RegisterAndFactoredOffset inp decoded pos
  | some .defCfa | some .register => uleb128RegisterAndOffset inp decoded pos
  | some .offsetExtendedSf | some .defCfaSf => uleb128RegisterSleb128Offset inp decoded pos
  | some .defCfaOffset => uleb128OffsetOnly inp decoded pos
  | some .defCfaOffsetSf => sleb128OffsetOnly inp decoded pos
  | some .expression => uleb128RegisterAndBlock inp decoded pos
  | some .defCfaExpression => uleb128Block inp decoded pos
  | some .valOffset => uleb128RegisterSleb128Offset inp decoded pos
  | some .valOffsetSf => uleb128RegisterAndFactoredOffset inp decoded pos
  | some .valExpression => uleb128RegisterAndBlock inp decoded pos
  | some .gnuArgsSize => uleb128OffsetOnly inp decoded pos
  | none => .error .assertFailed

/-- `frame_instrlist::frame_instrlist`: the decoded instructions and the final
`pos`.  A skipped block can move `pos` backwards, so the steps are bounded. -/
def frameInstrlist (inp : DecodeInput) : ℕ → ℕ → Except Fault (List FrameOp × ℕ)
  | 0, pos => if pos < inp.limit then .error .outOfSteps else .ok ([], pos)
  | fuel + 1, pos =>
    if pos < inp.limit then do
      let (op, pos) ← decodeInstr inp pos
      let (ops, pos) ← frameInstrlist inp fuel pos
      return (op :: ops, pos)
    else .ok ([], pos)

/-- More steps do not change a result. -/
theorem frameInstrlist_mono {inp : DecodeInput} {fuel fuel' pos : ℕ} {r : List FrameOp × ℕ}
    (h : frameInstrlist inp fuel pos = .ok r) (hle : fuel ≤ fuel') :
    frameInstrlist inp fuel' pos = .ok r := by
  induction fuel generalizing fuel' pos r with
  | zero =>
    unfold frameInstrlist at h
    split_ifs at h with hpos
    cases fuel' with
    | zero => rwa [frameInstrlist, if_neg hpos]
    | succ fuel' => rwa [frameInstrlist, if_neg hpos]
  | succ fuel ih =>
    obtain ⟨fuel', rfl⟩ := Nat.exists_eq_succ_of_ne_zero (by omega : fuel' ≠ 0)
    rw [Nat.succ_eq_add_one]
    unfold frameInstrlist at h ⊢
    split_ifs at h ⊢ with hpos
    · obtain ⟨⟨op, pos'⟩, hop, hrest⟩ := bind_eq_ok.1 h
      obtain ⟨⟨ops, pos''⟩, hops, hret⟩ := bind_eq_ok.1 hrest
      rw [hop, ok_bind]
      simp only
      rw [ih hops (by omega)]
      exact hret
    · exact h

end Frame
end Dwarfpp
