/-
# The bytes that the call-frame decoder reads

The readers and `frame_instrlist` once more, in `Logged`: every `*pos` of the
source is an event, the address read.  A result lemma for each function says
that the logged copy computes what the function of `Frame.Readers` or
`Frame.InstrList` computes; `frameInstrlistLog_result` is the last of them.
-/

import Dwarfpp.Frame.InstrList
import Dwarfpp.Lib.Logged

namespace Dwarfpp
namespace Frame

open Lib

/-- A computation that logs the addresses it reads. -/
abbrev ReadLog := Logged ℕ Fault

/-- `*a`. -/
def readByte (mem : Memory) (a : ℕ) : ReadLog Byte := .event a (mem a)

/-- `assert(p)`. -/
def assertLog (p : Prop) [Decidable p] : ReadLog Unit := .lift (assert p)

def failLog {α : Type} (e : Fault) : ReadLog α := .lift (.error e)

/-- The `do`-`while` of `read_uleb128`. -/
def readUleb128LoopLog (mem : Memory) (start limit : ℕ) :
    ℕ → ℕ → BitVec 64 → ReadLog (BitVec 64 × ℕ)
  | 0, _, _ => failLog .outOfSteps
  | fuel + 1, cur, working =>
    if limit ≤ cur then failLog .assertFailed
    else do
      let b ← readByte mem cur
      if 32 ≤ 7 * (cur - start) then failLog .undefinedBehaviour
      else
        let working := working ||| lebPiece b (7 * (cur - start))
        -- the loop test reads the byte again
        let b ← readByte mem cur
        if 128 ≤ b.toNat then readUleb128LoopLog mem start limit fuel (cur + 1) working
        else pure (working, cur + 1)

/-- `read_uleb128`. -/
def readUleb128Log (mem : Memory) (cur limit : ℕ) : ReadLog (BitVec 64 × ℕ) := do
  let (working, pos) ← readUleb128LoopLog mem cur limit (limit - cur + 1) cur 0#64
  assertLog (7 * (pos - cur) < 64)
  pure (working, pos)

/-- `read_sleb128`. -/
def readSleb128Log (mem : Memory) (cur limit : ℕ) : ReadLog (BitVec 64 × ℕ) := do
  let (working, pos) ← readUleb128Log mem cur limit
  let topBits := 64 - 7 * (pos - cur)
  pure ((working <<< topBits).sshiftRight topBits, pos)

/-- The bytes of a little-endian word. -/
def wordLeLog (mem : Memory) (p : ℕ) : ℕ → ℕ → ReadLog (BitVec 64)
  | _, 0 => pure 0
  | i, n + 1 => do
    let b ← readByte mem (p + i)
    let rest ← wordLeLog mem p (i + 1) n
    pure (b.setWidth 64 <<< (8 * i) ||| rest)

/-- The bytes of a big-endian word. -/
def wordBeLog (mem : Memory) : ℕ → ℕ → ReadLog (BitVec 64)
  | _, 0 => pure 0
  | p, n + 1 => do
    let b ← readByte mem p
    let rest ← wordBeLog mem (p + 1) n
    pure (b.setWidth 64 <<< (8 * n) ||| rest)

/-- The family `read_{2,4,8}byte_le`. -/
def readLeLog (n : ℕ) (mem : Memory) (cur limit : ℕ) : ReadLog (BitVec 64 × ℕ) := do
  assertLog (cur + n ≤ limit)
  let w ← wordLeLog mem cur 0 n
  pure (w, cur + n)

/-- The family `read_{2,4,8}byte_be`. -/
def readBeLog (n : ℕ) (mem : Memory) (cur limit : ℕ) : ReadLog (BitVec 64 × ℕ) := do
  assertLog (cur + n ≤ limit)
  let w ← wordBeLog mem cur n
  pure (w, cur + n)

/-- `read_addr`. -/
def readAddrLog (hostBig : Bool) (addrlen : ℕ) (mem : Memory) (cur limit : ℕ)
    (useHostByteOrder : Bool) : ReadLog (BitVec 64 × ℕ) := do
  assertLog (addrlen = 4 ∨ addrlen = 8)
  let readBe := xor (!hostBig) useHostByteOrder
  if readBe && addrlen = 4 then readBeLog 4 mem cur limit
  else if readBe && addrlen = 8 then readBeLog 8 mem cur limit
  else if !readBe && addrlen = 4 then readLeLog 4 mem cur limit
  else readLeLog 8 mem cur limit

section Operands

variable (inp : DecodeInput) (decoded : FrameOp) (pos : ℕ)

/-- Label `uleb128_register_only`. -/
def uleb128RegisterOnlyLog : ReadLog (FrameOp × ℕ) := do
  let (reg, pos) ← readUleb128Log inp.mem pos inp.limit
  pure ({ decoded with fpRegister := reg.setWidth 16 }, pos)

/-- Label `uleb128_register_and_factored_offset`. -/
def uleb128RegisterAndFactoredOffsetLog : ReadLog (FrameOp × ℕ) := do
  let (reg, pos) ← readUleb128Log inp.mem pos inp.limit
  let (off, pos) ← readUleb128Log inp.mem pos inp.limit
  pure ({ decoded with fpRegister := reg.setWidth 16, fpOffsetOrBlockLen := inp.daf * off }, pos)

/-- Label `uleb128_register_and_offset`. -/
def uleb128RegisterAndOffsetLog : ReadLog (FrameOp × ℕ) := do
  let (reg, pos) ← readUleb128Log inp.mem pos inp.limit
  let (off, pos) ← readUleb128Log inp.mem pos inp.limit
  pure ({ decoded with fpRegister := reg.setWidth 16, fpOffsetOrBlockLen := off }, pos)

/-- Label `uleb128_register_sleb128_offset`. -/
def uleb128RegisterSleb128OffsetLog : ReadLog (FrameOp × ℕ) := do
  let (reg, pos) ← readUleb128Log inp.mem pos inp.limit
  let (off, pos) ← readSleb128Log inp.mem pos inp.limit
  let product ← Logged.lift (mulSigned inp.daf off)
  pure ({ decoded with fpRegister := reg.setWidth 16, fpOffsetOrBlockLen := product }, pos)

/-- Label `uleb128_offset_only`. -/
def uleb128OffsetOnlyLog : ReadLog (FrameOp × ℕ) := do
  let (off, pos) ← readUleb128Log inp.mem pos inp.limit
  pure ({ decoded with fpOffsetOrBlockLen := off }, pos)

/-- Label `sleb128_offset_only`. -/
def sleb128OffsetOnlyLog : ReadLog (FrameOp × ℕ) := do
  let (off, pos) ← readSleb128Log inp.mem pos inp.limit
  let product ← Logged.lift (mulSigned inp.daf off)
  pure ({ decoded with fpOffsetOrBlockLen := product }, pos)

/-- The body of `DW_CFA_def_cfa_expression`. -/
def uleb128BlockLog : ReadLog (FrameOp × ℕ) := do
  let (len, pos) ← readUleb128Log inp.mem pos inp.limit
  pure ({ decoded with fpOffsetOrBlockLen := len, fpExprBlock := pos },
    (pos + len.toNat) % 2 ^ 64)

/-- The body of `DW_CFA_expression` and `DW_CFA_val_expression`. -/
def uleb128RegisterAndBlockLog : ReadLog (FrameOp × ℕ) := do
  let (reg, pos) ← readUleb128Log inp.mem pos inp.limit
  uleb128BlockLog inp { decoded with fpRegister := reg.setWidth 16 } pos

/-- The body of `DW_CFA_offset`. -/
def packedRegisterAndFactoredOffsetLog (b : Byte) : ReadLog (FrameOp × ℕ) := do
  let (off, pos) ← readUleb128Log inp.mem pos inp.limit
  let product := inp.daf * off
  assertLog (inp.daf.toInt < 0 → product.toInt ≤ 0)
  pure ({ decoded with fpRegister := (b &&& 0x3f).setWidth 16, fpOffsetOrBlockLen := product },
    pos)

/-- The operands of `DW_CFA_advance_loc2` and `DW_CFA_advance_loc4`. -/
def fixedOffsetLog (le be : Memory → ℕ → ℕ → ReadLog (BitVec 64 × ℕ)) :
    ReadLog (FrameOp × ℕ) := do
  let (off, pos) ←
    if xor inp.hostBig inp.useHostByteOrder then le inp.mem pos inp.limit
    else be inp.mem pos inp.limit
  pure ({ decoded with fpOffsetOrBlockLen := off }, pos)

/-- The operands of the opcode in the first byte, as `decodeInstr` takes them. -/
def decodeOperandsLog (b : Byte) : ReadLog (FrameOp × ℕ) :=
  match CfaOpcode.ofCode (opcodeFromByte b) with
  | some .advanceLoc => pure ({ decoded with fpOffsetOrBlockLen := (b &&& 0x3f).setWidth 64 }, pos)
  | some .offset => packedRegisterAndFactoredOffsetLog inp decoded pos b
  | some .restore => pure ({ decoded with fpRegister := (b &&& 0x3f).setWidth 16 }, pos)
  | some .nop | some .rememberState | some .restoreState => pure (decoded, pos)
  | some .setLoc => do
    let (addr, pos) ← readAddrLog inp.hostBig inp.addrlen inp.mem pos inp.limit inp.useHostByteOrder
    pure ({ decoded with fpOffsetOrBlockLen := addr }, pos)
  | some .advanceLoc1 => do
    let delta ← readByte inp.mem pos
    pure ({ decoded with fpOffsetOrBlockLen := delta.setWidth 64 }, pos + 1)
  | some .advanceLoc2 => fixedOffsetLog inp decoded pos (readLeLog 2) (readBeLog 2)
  | some .advanceLoc4 => fixedOffsetLog inp decoded pos (readLeLog 4) (readBeLog 4)
  | some .restoreExtended | some .undefined | some .sameValue | some .defCfaRegister =>
    uleb128RegisterOnlyLog inp decoded pos
  | some .offsetExtended => uleb128RegisterAndFactoredOffsetLog inp decoded pos
  | some .defCfa | some .register => uleb128RegisterAndOffsetLog inp decoded pos
  | some .offsetExtendedSf | some .defCfaSf => uleb128RegisterSleb128OffsetLog inp decoded pos
  | some .defCfaOffset => uleb128OffsetOnlyLog inp decoded pos
  | some .defCfaOffsetSf => sleb128OffsetOnlyLog inp decoded pos
  | some .expression => uleb128RegisterAndBlockLog inp decoded pos
  | some .defCfaExpression => uleb128BlockLog inp decoded pos
  | some .valOffset => uleb128RegisterSleb128OffsetLog inp decoded pos
  | some .valOffsetSf => uleb128RegisterAndFactoredOffsetLog inp decoded pos
  | some .valExpression => uleb128RegisterAndBlockLog inp decoded pos
  | some .gnuArgsSize => uleb128OffsetOnlyLog inp decoded pos
  | none => failLog .assertFailed

end Operands

/-- One iteration of the loop. -/
def decodeInstrLog (inp : DecodeInput) (pos : ℕ) : ReadLog (FrameOp × ℕ) := do
  let b ← readByte inp.mem pos
  decodeOperandsLog inp (FrameOp.ofByte b) (pos + 1) b

/-- `frame_instrlist::frame_instrlist`. -/
def frameInstrlistLog (inp : DecodeInput) : ℕ → ℕ → ReadLog (List FrameOp × ℕ)
  | 0, pos => if pos < inp.limit then failLog .outOfSteps else pure ([], pos)
  | fuel + 1, pos =>
    if pos < inp.limit then do
      let (op, pos) ← decodeInstrLog inp pos
      let (ops, pos) ← frameInstrlistLog inp fuel pos
      pure (op :: ops, pos)
    else pure ([], pos)

/-! ### The same results -/

@[simp] theorem readByte_result (mem : Memory) (a : ℕ) : (readByte mem a).result = .ok (mem a) :=
  rfl

@[simp] theorem assertLog_result (p : Prop) [Decidable p] : (assertLog p).result = assert p := rfl

@[simp] theorem failLog_result {α : Type} (e : Fault) :
    (failLog e : ReadLog α).result = .error e := rfl

@[simp] theorem readUleb128LoopLog_result (mem : Memory) (start limit fuel cur : ℕ)
    (working : BitVec 64) :
    (readUleb128LoopLog mem start limit fuel cur working).result =
      readUleb128Loop mem start limit fuel cur working := by
  induction fuel generalizing cur working with
  | zero => rfl
  | succ fuel ih =>
    rw [readUleb128LoopLog, readUleb128Loop, Logged.result_ite, Logged.result_bind, readByte_result,
      ok_bind, Logged.result_ite]
    simp only [Logged.result_bind, readByte_result, ok_bind, Logged.result_ite, ih]
    rfl

@[simp] theorem readUleb128Log_result (mem : Memory) (cur limit : ℕ) :
    (readUleb128Log mem cur limit).result = readUleb128 mem cur limit := by
  simp only [readUleb128Log, readUleb128, Logged.result_bind, readUleb128LoopLog_result,
    assertLog_result]
  rfl

@[simp] theorem readSleb128Log_result (mem : Memory) (cur limit : ℕ) :
    (readSleb128Log mem cur limit).result = readSleb128 mem cur limit := by
  rw [readSleb128Log, readSleb128, Logged.result_bind, readUleb128Log_result]
  rfl

@[simp] theorem wordLeLog_result (mem : Memory) (p i n : ℕ) :
    (wordLeLog mem p i n).result = .ok (wordLe mem p i n) := by
  induction n generalizing i with
  | zero => rfl
  | succ n ih =>
    rw [wordLeLog, Logged.result_bind, readByte_result, ok_bind, Logged.result_bind, ih]
    rfl

@[simp] theorem wordBeLog_result (mem : Memory) (p n : ℕ) :
    (wordBeLog mem p n).result = .ok (wordBe mem p n) := by
  induction n generalizing p with
  | zero => rfl
  | succ n ih =>
    rw [wordBeLog, Logged.result_bind, readByte_result, ok_bind, Logged.result_bind, ih]
    rfl

@[simp] theorem readLeLog_result (n : ℕ) (mem : Memory) (cur limit : ℕ) :
    (readLeLog n mem cur limit).result = readLe n mem cur limit := by
  simp only [readLeLog, readLe, Logged.result_bind, assertLog_result, wordLeLog_result]
  rfl

@[simp] theorem readBeLog_result (n : ℕ) (mem : Memory) (cur limit : ℕ) :
    (readBeLog n mem cur limit).result = readBe n mem cur limit := by
  simp only [readBeLog, readBe, Logged.result_bind, assertLog_result, wordBeLog_result]
  rfl

@[simp] theorem readAddrLog_result (hostBig useHostByteOrder : Bool) (addrlen : ℕ) (mem : Memory)
    (cur limit : ℕ) :
    (readAddrLog hostBig addrlen mem cur limit useHostByteOrder).result =
      readAddr hostBig addrlen mem cur limit useHostByteOrder := by
  simp only [readAddrLog, readAddr, Logged.result_bind, assertLog_result, Logged.result_ite,
    readLeLog_result, readBeLog_result]
  rfl

section Operands

variable (inp : DecodeInput) (decoded : FrameOp) (pos : ℕ)

theorem fixedOffsetLog_result (n : ℕ) :
    (fixedOffsetLog inp decoded pos (readLeLog n) (readBeLog n)).result =
      fixedOffset inp decoded pos (readLe n) (readBe n) := by
  unfold fixedOffsetLog fixedOffset
  split_ifs
  · rw [Logged.result_bind, readLeLog_result]
    rfl
  · rw [Logged.result_bind, readBeLog_result]
    rfl

theorem uleb128BlockLog_result :
    (uleb128BlockLog inp decoded pos).result = uleb128Block inp decoded pos := by
  rw [uleb128BlockLog, uleb128Block, Logged.result_bind, readUleb128Log_result]
  rfl

theorem uleb128RegisterAndBlockLog_result :
    (uleb128RegisterAndBlockLog inp decoded pos).result =
      uleb128RegisterAndBlock inp decoded pos := by
  simp only [uleb128RegisterAndBlockLog, uleb128RegisterAndBlock, Logged.result_bind,
    readUleb128Log_result, uleb128BlockLog_result]

/-- **One iteration computes what `decodeInstr` does.** -/
theorem decodeInstrLog_result : (decodeInstrLog inp pos).result = decodeInstr inp pos := by
  rw [decodeInstrLog, Logged.result_bind, readByte_result, ok_bind, decodeInstr, decodeOperandsLog]
  cases CfaOpcode.ofCode (opcodeFromByte (inp.mem pos)) with
  | none => rfl
  | some c =>
    cases c
    case advanceLoc2 | advanceLoc4 => exact fixedOffsetLog_result inp _ _ _
    case defCfaExpression => exact uleb128BlockLog_result inp _ _
    case expression | valExpression => exact uleb128RegisterAndBlockLog_result inp _ _
    case setLoc =>
      simp only [Logged.result_bind, readAddrLog_result]
      rfl
    case offset =>
      simp only [packedRegisterAndFactoredOffsetLog, packedRegisterAndFactoredOffset,
        Logged.result_bind, readUleb128Log_result, assertLog_result]
      rfl
    case restoreExtended | undefined | sameValue | defCfaRegister =>
      simp only [uleb128RegisterOnlyLog, uleb128RegisterOnly, Logged.result_bind,
        readUleb128Log_result]
      rfl
    case offsetExtended | valOffsetSf =>
      simp only [uleb128RegisterAndFactoredOffsetLog, uleb128RegisterAndFactoredOffset,
        Logged.result_bind, readUleb128Log_result]
      rfl
    case defCfa | register =>
      simp only [uleb128RegisterAndOffsetLog, uleb128RegisterAndOffset, Logged.result_bind,
        readUleb128Log_result]
      rfl
    case offsetExtendedSf | defCfaSf | valOffset =>
      simp only [uleb128RegisterSleb128OffsetLog, uleb128RegisterSleb128Offset,
        Logged.result_bind, readUleb128Log_result, readSleb128Log_result, Logged.result_lift]
      rfl
    case defCfaOffset | gnuArgsSize =>
      simp only [uleb128OffsetOnlyLog, uleb128OffsetOnly, Logged.result_bind, readUleb128Log_result]
      rfl
    case defCfaOffsetSf =>
      simp only [sleb128OffsetOnlyLog, sleb128OffsetOnly, Logged.result_bind,
        readSleb128Log_result, Logged.result_lift]
      rfl
    all_goals rfl

/-- **The logged decoder computes what `frame_instrlist` does.** -/
theorem frameInstrlistLog_result (fuel : ℕ) :
    (frameInstrlistLog inp fuel pos).result = frameInstrlist inp fuel pos := by
  induction fuel generalizing pos with
  | zero =>
    rw [frameInstrlistLog, frameInstrlist, Logged.result_ite]
    rfl
  | succ fuel ih =>
    rw [frameInstrlistLog, frameInstrlist, Logged.result_ite]
    simp only [Logged.result_bind, decodeInstrLog_result, ih]
    rfl

end Operands

end Frame
end Dwarfpp
