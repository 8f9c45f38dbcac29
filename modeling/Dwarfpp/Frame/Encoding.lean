/-
# The standard encoding of call-frame instructions

`CfaInstr` is a call-frame instruction as the DWARF standard writes it, with
mathematical operands, and `encode` its standard byte encoding: the opcode
byte, with an operand below 64 in its low six bits for the three packed
opcodes, then the operands in order, LEB128 numbers in their minimal form.

`readBack` is what the decoder makes of one encoded instruction, operand by
operand; `decodeInstr_encode` and `frameInstrlist_encode` prove that it is, for
one instruction and for a list, and that exactly the encoded bytes are consumed.
-/

import Dwarfpp.Frame.InstrList

namespace Dwarfpp
namespace Frame

open Lib

/-- A call-frame instruction with its operands. -/
inductive CfaInstr
  | advanceLoc (delta : ℕ)
  | advanceLoc1 (delta : ℕ)
  | advanceLoc2 (delta : ℕ)
  | advanceLoc4 (delta : ℕ)
  | setLoc (addr : ℕ)
  | offset (reg off : ℕ)
  | offsetExtended (reg off : ℕ)
  | offsetExtendedSf (reg : ℕ) (off : ℤ)
  | restore (reg : ℕ)
  | restoreExtended (reg : ℕ)
  | undefined (reg : ℕ)
  | sameValue (reg : ℕ)
  | register (reg reg' : ℕ)
  | rememberState
  | restoreState
  | defCfa (reg off : ℕ)
  | defCfaSf (reg : ℕ) (off : ℤ)
  | defCfaRegister (reg : ℕ)
  | defCfaOffset (off : ℕ)
  | defCfaOffsetSf (off : ℤ)
  | defCfaExpression (block : List Byte)
  | expression (reg : ℕ) (block : List Byte)
  | valOffset (reg off : ℕ)
  | valOffsetSf (reg : ℕ) (off : ℤ)
  | valExpression (reg : ℕ) (block : List Byte)
  | gnuArgsSize (size : ℕ)
  | nop
  deriving DecidableEq, Repr

namespace CfaInstr

def opcode : CfaInstr → CfaOpcode
  | advanceLoc _ => .advanceLoc
  | advanceLoc1 _ => .advanceLoc1
  | advanceLoc2 _ => .advanceLoc2
  | advanceLoc4 _ => .advanceLoc4
  | setLoc _ => .setLoc
  | offset _ _ => .offset
  | offsetExtended _ _ => .offsetExtended
  | offsetExtendedSf _ _ => .offsetExtendedSf
  | restore _ => .restore
  | restoreExtended _ => .restoreExtended
  | undefined _ => .undefined
  | sameValue _ => .sameValue
  | register _ _ => .register
  | rememberState => .rememberState
  | restoreState => .restoreState
  | defCfa _ _ => .defCfa
  | defCfaSf _ _ => .defCfaSf
  | defCfaRegister _ => .defCfaRegister
  | defCfaOffset _ => .defCfaOffset
  | defCfaOffsetSf _ => .defCfaOffsetSf
  | defCfaExpression _ => .defCfaExpression
  | expression _ _ => .expression
  | valOffset _ _ => .valOffset
  | valOffsetSf _ _ => .valOffsetSf
  | valExpression _ _ => .valExpression
  | gnuArgsSize _ => .gnuArgsSize
  | nop => .nop

/-- The operand in the low six bits of the opcode byte. -/
def packed : CfaInstr → ℕ
  | advanceLoc delta => delta
  | offset reg _ => reg
  | restore reg => reg
  | _ => 0

/-- The register operand. -/
def reg : CfaInstr → ℕ
  | offset reg _ | offsetExtended reg _ | offsetExtendedSf reg _ | restore reg
  | restoreExtended reg | undefined reg | sameValue reg | register reg _ | defCfa reg _
  | defCfaSf reg _ | defCfaRegister reg | expression reg _ | valOffset reg _ | valOffsetSf reg _
  | valExpression reg _ => reg
  | _ => 0

/-- The block operand. -/
def block : CfaInstr → List Byte
  | defCfaExpression block | expression _ block | valExpression _ block => block
  | _ => []

/-- The operands encoded as LEB128 numbers. -/
def lebOperands : CfaInstr → List ℤ
  | offset _ off => [off]
  | offsetExtended reg off | valOffset reg off | defCfa reg off => [reg, off]
  | offsetExtendedSf reg off | valOffsetSf reg off | defCfaSf reg off => [reg, off]
  | restoreExtended reg | undefined reg | sameValue reg | defCfaRegister reg => [reg]
  | register reg reg' => [reg, reg']
  | defCfaOffset off | gnuArgsSize off => [off]
  | defCfaOffsetSf off => [off]
  | defCfaExpression block => [block.length]
  | expression reg block | valExpression reg block => [reg, block.length]
  | _ => []

/-- The fixed-width operands fit their width, the packed ones their six bits. -/
def FixedFits (addrlen : ℕ) : CfaInstr → Prop
  | advanceLoc delta => delta < 64
  | advanceLoc1 delta => delta < 256 ^ 1
  | advanceLoc2 delta => delta < 256 ^ 2
  | advanceLoc4 delta => delta < 256 ^ 4
  | setLoc addr => addr < 256 ^ addrlen
  | offset reg _ | restore reg => reg < 64
  | _ => True

/-- The LEB128 operands lie in `[-bound, bound]`. -/
def LebFits (bound : ℤ) (i : CfaInstr) : Prop := ∀ x ∈ i.lebOperands, -bound ≤ x ∧ x ≤ bound

/-- The LEB128 operands lie in the range of `int`. -/
def IntFits (i : CfaInstr) : Prop := ∀ x ∈ i.lebOperands, -2 ^ 31 ≤ x ∧ x < 2 ^ 31

theorem IntFits.of_lebFits {i : CfaInstr} (h : i.LebFits (2 ^ 27)) : i.IntFits := fun x hx => by
  have hb := h x hx
  omega

instance (addrlen : ℕ) (i : CfaInstr) : Decidable (i.FixedFits addrlen) := by
  cases i <;> unfold FixedFits <;> infer_instance

instance (bound : ℤ) (i : CfaInstr) : Decidable (i.LebFits bound) :=
  inferInstanceAs (Decidable (∀ _ ∈ _, _))

instance (i : CfaInstr) : Decidable i.IntFits := inferInstanceAs (Decidable (∀ _ ∈ _, _))

/-- The first byte. -/
def firstByte (i : CfaInstr) : Byte := i.opcode.code + BitVec.ofNat 8 i.packed

/-- The bytes after the first. -/
def operandBytes (hostBig useHostByteOrder : Bool) (addrlen : ℕ) : CfaInstr → List Byte
  | advanceLoc1 delta => [BitVec.ofNat 8 delta]
  | advanceLoc2 delta => fixedBytes hostBig useHostByteOrder 2 delta
  | advanceLoc4 delta => fixedBytes hostBig useHostByteOrder 4 delta
  | setLoc addr => fixedBytes hostBig useHostByteOrder addrlen addr
  | offset _ off => (Leb.ofNat off).bytes
  | offsetExtended reg off | valOffset reg off | defCfa reg off | register reg off =>
    (Leb.ofNat reg).bytes ++ (Leb.ofNat off).bytes
  | offsetExtendedSf reg off | valOffsetSf reg off | defCfaSf reg off =>
    (Leb.ofNat reg).bytes ++ (Leb.ofInt off).bytes
  | restoreExtended reg | undefined reg | sameValue reg | defCfaRegister reg =>
    (Leb.ofNat reg).bytes
  | defCfaOffset off | gnuArgsSize off => (Leb.ofNat off).bytes
  | defCfaOffsetSf off => (Leb.ofInt off).bytes
  | defCfaExpression block => (Leb.ofNat block.length).bytes ++ block
  | expression reg block | valExpression reg block =>
    (Leb.ofNat reg).bytes ++ ((Leb.ofNat block.length).bytes ++ block)
  | _ => []

/-- The standard encoding. -/
def encode (hostBig useHostByteOrder : Bool) (addrlen : ℕ) (i : CfaInstr) : List Byte :=
  i.firstByte :: i.operandBytes hostBig useHostByteOrder addrlen

end CfaInstr

/-- The standard encoding of a list. -/
def encodeList (hostBig useHostByteOrder : Bool) (addrlen : ℕ) (is : List CfaInstr) : List Byte :=
  is.flatMap (CfaInstr.encode hostBig useHostByteOrder addrlen)

/-! ### Reading the LEB128 operands back -/

/-- The record of opcode `c` with the given register, offset and block address. -/
def FrameOp.make (c : CfaOpcode) (reg : ℕ) (off : BitVec 64) (block : ℕ) : FrameOp :=
  { FrameOp.ofByte c.code with
    fpRegister := BitVec.ofNat 16 reg, fpOffsetOrBlockLen := off, fpExprBlock := block }

section Read

variable {mem : Memory} {cur limit : ℕ}

theorem readUleb128_ofNat {n : ℕ} (hn : n < 2 ^ 31) (hlim : cur + (Leb.ofNat n).length ≤ limit)
    (hmem : HoldsAt mem cur (Leb.ofNat n).bytes) :
    readUleb128 mem cur limit = .ok (BitVec.ofNat 64 n, cur + (Leb.ofNat n).length) := by
  have hlen : (Leb.ofNat n).length ≤ 4 + 1 := Leb.length_ofNat_le (by norm_num; omega)
  have h := readUleb128_unsigned hlen (by rwa [Leb.unsigned_ofNat]) hlim hmem
  rwa [Leb.unsigned_ofNat] at h

theorem readSleb128_ofInt {z : ℤ} (h1 : -2 ^ 31 ≤ z) (h2 : z < 2 ^ 31)
    (hlim : cur + (Leb.ofInt z).length ≤ limit) (hmem : HoldsAt mem cur (Leb.ofInt z).bytes) :
    readSleb128 mem cur limit = .ok (BitVec.ofInt 64 z, cur + (Leb.ofInt z).length) := by
  have hlen : (Leb.ofInt z).length ≤ 4 + 1 :=
    Leb.length_ofInt_le (by norm_num; omega) (by norm_num; omega)
  have h := readSleb128_signed hlen (by rwa [Leb.signed_ofInt]) (by rwa [Leb.signed_ofInt])
    hlim hmem
  rwa [Leb.signed_ofInt] at h

/-- A signed reading of an unsigned number below `2 ^ 31` stays within 32 bits. -/
theorem signed_ofNat_bounds {n : ℕ} (hn : n < 2 ^ 31) :
    -2 ^ 31 ≤ (Leb.ofNat n).signed ∧ (Leb.ofNat n).signed < 2 ^ 31 := by
  have hlen : (Leb.ofNat n).length ≤ 4 + 1 := Leb.length_ofNat_le (by norm_num; omega)
  have hpos := (Leb.ofNat n).length_pos
  have hb := (Leb.ofNat n).signed_bounds
  have heq := (Leb.ofNat n).signed_eq
  rw [Leb.unsigned_ofNat] at heq
  generalize (Leb.ofNat n).length = k at *
  interval_cases k <;> norm_num at hb heq ⊢ <;> split_ifs at heq <;> omega

theorem readSleb128_ofNat {n : ℕ} (hn : n < 2 ^ 31) (hlim : cur + (Leb.ofNat n).length ≤ limit)
    (hmem : HoldsAt mem cur (Leb.ofNat n).bytes) :
    readSleb128 mem cur limit =
      .ok (BitVec.ofInt 64 (Leb.ofNat n).signed, cur + (Leb.ofNat n).length) := by
  have hlen : (Leb.ofNat n).length ≤ 4 + 1 := Leb.length_ofNat_le (by norm_num; omega)
  obtain ⟨hlo, hhi⟩ := signed_ofNat_bounds hn
  exact readSleb128_signed hlen hlo hhi hlim hmem

theorem readUleb128_ofInt {z : ℤ} (h1 : -2 ^ 31 ≤ z) (h2 : z < 2 ^ 31)
    (hlim : cur + (Leb.ofInt z).length ≤ limit) (hmem : HoldsAt mem cur (Leb.ofInt z).bytes) :
    readUleb128 mem cur limit =
      .ok (BitVec.ofInt 64 (unsignedRead (Leb.ofInt z)), cur + (Leb.ofInt z).length) := by
  have hlen : (Leb.ofInt z).length ≤ 4 + 1 :=
    Leb.length_ofInt_le (by norm_num; omega) (by norm_num; omega)
  exact readUleb128_eq hlen hlim hmem

end Read

/-! ### One instruction -/

/-- What the decoder makes of an encoded instruction at address `pos`. -/
def readBack (daf : BitVec 64) (pos : ℕ) : CfaInstr → Except Fault FrameOp
  | .advanceLoc delta => .ok (.make .advanceLoc 0 (BitVec.ofNat 64 delta) 0)
  | .advanceLoc1 delta => .ok (.make .advanceLoc1 0 (BitVec.ofNat 64 delta) 0)
  | .advanceLoc2 delta => .ok (.make .advanceLoc2 0 (BitVec.ofNat 64 delta) 0)
  | .advanceLoc4 delta => .ok (.make .advanceLoc4 0 (BitVec.ofNat 64 delta) 0)
  | .setLoc addr => .ok (.make .setLoc 0 (BitVec.ofNat 64 addr) 0)
  | .offset reg off => do
    assert (daf.toInt < 0 → (daf * BitVec.ofNat 64 off).toInt ≤ 0)
    return .make .offset reg (daf * BitVec.ofNat 64 off) 0
  | .offsetExtended reg off => .ok (.make .offsetExtended reg (daf * BitVec.ofNat 64 off) 0)
  | .offsetExtendedSf reg off => do
    return .make .offsetExtendedSf reg (← mulSigned daf (BitVec.ofInt 64 off)) 0
  | .restore reg => .ok (.make .restore reg 0 0)
  | .restoreExtended reg => .ok (.make .restoreExtended reg 0 0)
  | .undefined reg => .ok (.make .undefined reg 0 0)
  | .sameValue reg => .ok (.make .sameValue reg 0 0)
  | .register reg reg' => .ok (.make .register reg (BitVec.ofNat 64 reg') 0)
  | .rememberState => .ok (.make .rememberState 0 0 0)
  | .restoreState => .ok (.make .restoreState 0 0 0)
  | .defCfa reg off => .ok (.make .defCfa reg (BitVec.ofNat 64 off) 0)
  | .defCfaSf reg off => do
    return .make .defCfaSf reg (← mulSigned daf (BitVec.ofInt 64 off)) 0
  | .defCfaRegister reg => .ok (.make .defCfaRegister reg 0 0)
  | .defCfaOffset off => .ok (.make .defCfaOffset 0 (BitVec.ofNat 64 off) 0)
  | .defCfaOffsetSf off => do
    return .make .defCfaOffsetSf 0 (← mulSigned daf (BitVec.ofInt 64 off)) 0
  | .defCfaExpression block =>
    .ok (.make .defCfaExpression 0 (BitVec.ofNat 64 block.length)
      (pos + 1 + (Leb.ofNat block.length).length))
  | .expression reg block =>
    .ok (.make .expression reg (BitVec.ofNat 64 block.length)
      (pos + 1 + (Leb.ofNat reg).length + (Leb.ofNat block.length).length))
  | .valOffset reg off => do
    return .make .valOffset reg (← mulSigned daf (BitVec.ofInt 64 (Leb.ofNat off).signed)) 0
  | .valOffsetSf reg off =>
    .ok (.make .valOffsetSf reg (daf * BitVec.ofInt 64 (unsignedRead (Leb.ofInt off))) 0)
  | .valExpression reg block =>
    .ok (.make .valExpression reg (BitVec.ofNat 64 block.length)
      (pos + 1 + (Leb.ofNat reg).length + (Leb.ofNat block.length).length))
  | .gnuArgsSize size => .ok (.make .gnuArgsSize 0 (BitVec.ofNat 64 size) 0)
  | .nop => .ok (.make .nop 0 0 0)

theorem firstByte_packed (c : CfaOpcode) (hc : c = .advanceLoc ∨ c = .offset ∨ c = .restore) :
    ∀ p : Fin 64,
      CfaOpcode.ofCode (opcodeFromByte (c.code + BitVec.ofNat 8 p)) = some c ∧
      FrameOp.ofByte (c.code + BitVec.ofNat 8 p) = FrameOp.ofByte c.code ∧
      (c.code + BitVec.ofNat 8 p) &&& 0x3f = BitVec.ofNat 8 p := by
  obtain rfl | rfl | rfl := hc <;> decide +kernel

theorem firstByte_extended (c : CfaOpcode) (hc : c ≠ .advanceLoc ∧ c ≠ .offset ∧ c ≠ .restore) :
    CfaOpcode.ofCode (opcodeFromByte (c.code + BitVec.ofNat 8 0)) = some c ∧
      FrameOp.ofByte (c.code + BitVec.ofNat 8 0) = FrameOp.ofByte c.code := by
  obtain ⟨h1, h2, h3⟩ := hc
  cases c <;> first | contradiction | decide +kernel

/-- The first byte selects its opcode, whatever is packed in it. -/
theorem ofCode_firstByte {addrlen : ℕ} {i : CfaInstr} (h : i.FixedFits addrlen) :
    CfaOpcode.ofCode (opcodeFromByte i.firstByte) = some i.opcode ∧
      FrameOp.ofByte i.firstByte = FrameOp.ofByte i.opcode.code := by
  unfold CfaInstr.firstByte
  cases i
  case advanceLoc delta =>
    exact ⟨(firstByte_packed _ (by simp [CfaInstr.opcode]) ⟨delta, h⟩).1,
      (firstByte_packed _ (by simp [CfaInstr.opcode]) ⟨delta, h⟩).2.1⟩
  case offset reg off =>
    exact ⟨(firstByte_packed _ (by simp [CfaInstr.opcode]) ⟨reg, h⟩).1,
      (firstByte_packed _ (by simp [CfaInstr.opcode]) ⟨reg, h⟩).2.1⟩
  case restore reg =>
    exact ⟨(firstByte_packed _ (by simp [CfaInstr.opcode]) ⟨reg, h⟩).1,
      (firstByte_packed _ (by simp [CfaInstr.opcode]) ⟨reg, h⟩).2.1⟩
  all_goals exact firstByte_extended _ (by simp [CfaInstr.opcode])

theorem setWidth_ofNat_byte {v p : ℕ} (hp : p < 256) (hv : 8 ≤ v) :
    (BitVec.ofNat 8 p).setWidth v = BitVec.ofNat v p := by
  have hpow : 2 ^ 8 ≤ 2 ^ v := Nat.pow_le_pow_right (by norm_num) hv
  apply BitVec.eq_of_toNat_eq
  rw [BitVec.toNat_setWidth, BitVec.toNat_ofNat, BitVec.toNat_ofNat, Nat.mod_eq_of_lt (by omega),
    Nat.mod_eq_of_lt (by omega), Nat.mod_eq_of_lt (by omega)]

section Forms

variable {inp : DecodeInput} {d : FrameOp} {pos : ℕ}

theorem uleb128RegisterOnly_encode {r : ℕ} (hr : r < 2 ^ 31)
    (hlim : pos + (Leb.ofNat r).bytes.length ≤ inp.limit)
    (hmem : HoldsAt inp.mem pos (Leb.ofNat r).bytes) :
    uleb128RegisterOnly inp d pos =
      .ok ({ d with fpRegister := BitVec.ofNat 16 r }, pos + (Leb.ofNat r).bytes.length) := by
  rw [Leb.bytes_length] at *
  rw [uleb128RegisterOnly, readUleb128_ofNat hr hlim hmem]
  simp only [ok_bind, BitVec.setWidth_ofNat_of_le (by norm_num : 16 ≤ 64)]
  rfl

theorem uleb128OffsetOnly_encode {n : ℕ} (hn : n < 2 ^ 31)
    (hlim : pos + (Leb.ofNat n).bytes.length ≤ inp.limit)
    (hmem : HoldsAt inp.mem pos (Leb.ofNat n).bytes) :
    uleb128OffsetOnly inp d pos =
      .ok ({ d with fpOffsetOrBlockLen := BitVec.ofNat 64 n }, pos + (Leb.ofNat n).bytes.length) := by
  rw [Leb.bytes_length] at *
  rw [uleb128OffsetOnly, readUleb128_ofNat hn hlim hmem]
  rfl

theorem sleb128OffsetOnly_encode {z : ℤ} (h1 : -2 ^ 31 ≤ z) (h2 : z < 2 ^ 31)
    (hlim : pos + (Leb.ofInt z).bytes.length ≤ inp.limit)
    (hmem : HoldsAt inp.mem pos (Leb.ofInt z).bytes) :
    sleb128OffsetOnly inp d pos = (do
      let product ← mulSigned inp.daf (BitVec.ofInt 64 z)
      return ({ d with fpOffsetOrBlockLen := product }, pos + (Leb.ofInt z).bytes.length)) := by
  rw [Leb.bytes_length] at *
  rw [sleb128OffsetOnly, readSleb128_ofInt h1 h2 hlim hmem]
  rfl

theorem packedRegisterAndFactoredOffset_encode {n : ℕ} {b : Byte} (hn : n < 2 ^ 31)
    (hlim : pos + (Leb.ofNat n).bytes.length ≤ inp.limit)
    (hmem : HoldsAt inp.mem pos (Leb.ofNat n).bytes) :
    packedRegisterAndFactoredOffset inp d pos b = (do
      assert (inp.daf.toInt < 0 → (inp.daf * BitVec.ofNat 64 n).toInt ≤ 0)
      return ({ d with
        fpRegister := (b &&& 0x3f).setWidth 16, fpOffsetOrBlockLen := inp.daf * BitVec.ofNat 64 n },
        pos + (Leb.ofNat n).bytes.length)) := by
  rw [Leb.bytes_length] at *
  rw [packedRegisterAndFactoredOffset, readUleb128_ofNat hn hlim hmem]
  rfl

theorem registerThen_bounds {r : ℕ} {l : Leb}
    (hlim : pos + ((Leb.ofNat r).bytes ++ l.bytes).length ≤ inp.limit)
    (hmem : HoldsAt inp.mem pos ((Leb.ofNat r).bytes ++ l.bytes)) :
    pos + (Leb.ofNat r).length ≤ inp.limit ∧ HoldsAt inp.mem pos (Leb.ofNat r).bytes ∧
      pos + (Leb.ofNat r).length + l.length ≤ inp.limit ∧
      HoldsAt inp.mem (pos + (Leb.ofNat r).length) l.bytes := by
  rw [List.length_append, Leb.bytes_length, Leb.bytes_length] at hlim
  obtain ⟨hm1, hm2⟩ := (holdsAt_append _ _ _ _).1 hmem
  rw [Leb.bytes_length] at hm2
  exact ⟨by omega, hm1, by omega, hm2⟩

theorem uleb128RegisterAndOffset_encode {r n : ℕ} (hr : r < 2 ^ 31) (hn : n < 2 ^ 31)
    (hlim : pos + ((Leb.ofNat r).bytes ++ (Leb.ofNat n).bytes).length ≤ inp.limit)
    (hmem : HoldsAt inp.mem pos ((Leb.ofNat r).bytes ++ (Leb.ofNat n).bytes)) :
    uleb128RegisterAndOffset inp d pos =
      .ok ({ d with fpRegister := BitVec.ofNat 16 r, fpOffsetOrBlockLen := BitVec.ofNat 64 n },
        pos + ((Leb.ofNat r).bytes ++ (Leb.ofNat n).bytes).length) := by
  obtain ⟨hl1, hm1, hl2, hm2⟩ := registerThen_bounds hlim hmem
  rw [uleb128RegisterAndOffset, readUleb128_ofNat hr hl1 hm1]
  simp only [ok_bind, BitVec.setWidth_ofNat_of_le (by norm_num : 16 ≤ 64)]
  rw [readUleb128_ofNat hn hl2 hm2, List.length_append, Leb.bytes_length, Leb.bytes_length,
    ← add_assoc]
  rfl

/-- The factored form on an unsigned or a signed number: `v` is what the reader
makes of its encoding `l`. -/
theorem uleb128RegisterAndFactoredOffset_encode {r : ℕ} {l : Leb} {v : BitVec 64} (hr : r < 2 ^ 31)
    (hv : ∀ cur, cur + l.length ≤ inp.limit → HoldsAt inp.mem cur l.bytes →
      readUleb128 inp.mem cur inp.limit = .ok (v, cur + l.length))
    (hlim : pos + ((Leb.ofNat r).bytes ++ l.bytes).length ≤ inp.limit)
    (hmem : HoldsAt inp.mem pos ((Leb.ofNat r).bytes ++ l.bytes)) :
    uleb128RegisterAndFactoredOffset inp d pos =
      .ok ({ d with fpRegister := BitVec.ofNat 16 r, fpOffsetOrBlockLen := inp.daf * v },
        pos + ((Leb.ofNat r).bytes ++ l.bytes).length) := by
  obtain ⟨hl1, hm1, hl2, hm2⟩ := registerThen_bounds hlim hmem
  rw [uleb128RegisterAndFactoredOffset, readUleb128_ofNat hr hl1 hm1]
  simp only [ok_bind, BitVec.setWidth_ofNat_of_le (by norm_num : 16 ≤ 64)]
  rw [hv _ hl2 hm2, List.length_append, Leb.bytes_length, Leb.bytes_length, ← add_assoc]
  rfl

theorem uleb128RegisterSleb128Offset_encode {r : ℕ} {l : Leb} {v : BitVec 64} (hr : r < 2 ^ 31)
    (hv : ∀ cur, cur + l.length ≤ inp.limit → HoldsAt inp.mem cur l.bytes →
      readSleb128 inp.mem cur inp.limit = .ok (v, cur + l.length))
    (hlim : pos + ((Leb.ofNat r).bytes ++ l.bytes).length ≤ inp.limit)
    (hmem : HoldsAt inp.mem pos ((Leb.ofNat r).bytes ++ l.bytes)) :
    uleb128RegisterSleb128Offset inp d pos = (do
      let product ← mulSigned inp.daf v
      return ({ d with fpRegister := BitVec.ofNat 16 r, fpOffsetOrBlockLen := product },
        pos + ((Leb.ofNat r).bytes ++ l.bytes).length)) := by
  obtain ⟨hl1, hm1, hl2, hm2⟩ := registerThen_bounds hlim hmem
  rw [uleb128RegisterSleb128Offset, readUleb128_ofNat hr hl1 hm1]
  simp only [ok_bind, BitVec.setWidth_ofNat_of_le (by norm_num : 16 ≤ 64)]
  rw [hv _ hl2 hm2, List.length_append, Leb.bytes_length, Leb.bytes_length, ← add_assoc]
  rfl

theorem uleb128Block_encode {block : List Byte} (hn : block.length < 2 ^ 31)
    (hlim : pos + ((Leb.ofNat block.length).bytes ++ block).length ≤ inp.limit)
    (hlimit : inp.limit < 2 ^ 64)
    (hmem : HoldsAt inp.mem pos ((Leb.ofNat block.length).bytes ++ block)) :
    uleb128Block inp d pos =
      .ok ({ d with
        fpOffsetOrBlockLen := BitVec.ofNat 64 block.length,
        fpExprBlock := pos + (Leb.ofNat block.length).length },
        pos + ((Leb.ofNat block.length).bytes ++ block).length) := by
  rw [List.length_append, Leb.bytes_length] at *
  obtain ⟨hm, -⟩ := (holdsAt_append _ _ _ _).1 hmem
  rw [uleb128Block, readUleb128_ofNat hn (by omega) hm]
  simp only [ok_bind, BitVec.toNat_ofNat]
  rw [Nat.mod_eq_of_lt (by omega : block.length < 2 ^ 64), Nat.mod_eq_of_lt (by omega), add_assoc]
  rfl

theorem uleb128RegisterAndBlock_encode {r : ℕ} {block : List Byte} (hr : r < 2 ^ 31)
    (hn : block.length < 2 ^ 31)
    (hlim : pos + ((Leb.ofNat r).bytes ++ ((Leb.ofNat block.length).bytes ++ block)).length ≤
      inp.limit)
    (hlimit : inp.limit < 2 ^ 64)
    (hmem : HoldsAt inp.mem pos ((Leb.ofNat r).bytes ++ ((Leb.ofNat block.length).bytes ++ block))) :
    uleb128RegisterAndBlock inp d pos =
      .ok ({ d with
        fpRegister := BitVec.ofNat 16 r,
        fpOffsetOrBlockLen := BitVec.ofNat 64 block.length,
        fpExprBlock := pos + (Leb.ofNat r).length + (Leb.ofNat block.length).length },
        pos + ((Leb.ofNat r).bytes ++ ((Leb.ofNat block.length).bytes ++ block)).length) := by
  rw [List.length_append, Leb.bytes_length, ← add_assoc] at *
  obtain ⟨hm1, hm2⟩ := (holdsAt_append _ _ _ _).1 hmem
  rw [Leb.bytes_length] at hm2
  rw [uleb128RegisterAndBlock, readUleb128_ofNat hr (by omega) hm1]
  simp only [ok_bind, BitVec.setWidth_ofNat_of_le (by norm_num : 16 ≤ 64)]
  exact uleb128Block_encode hn hlim hlimit hm2

theorem fixedOffset_encode {n v : ℕ} (hn : n ≤ 8) (hv : v < 256 ^ n)
    (hlim : pos + (fixedBytes inp.hostBig inp.useHostByteOrder n v).length ≤ inp.limit)
    (hmem : HoldsAt inp.mem pos (fixedBytes inp.hostBig inp.useHostByteOrder n v)) :
    fixedOffset inp d pos (readLe n) (readBe n) =
      .ok ({ d with fpOffsetOrBlockLen := BitVec.ofNat 64 v },
        pos + (fixedBytes inp.hostBig inp.useHostByteOrder n v).length) := by
  rw [fixedBytes_length] at *
  unfold fixedBytes at hmem
  unfold fixedOffset
  split_ifs at hmem with h
  · rw [if_neg (by simp [h]), readBe_bytes hn hv hlim hmem]
    rfl
  · rw [if_pos (by simpa using h), readLe_bytes hn hv hlim hmem]
    rfl

end Forms

/-- **One encoded instruction is decoded as `readBack` says**, and exactly its
bytes are consumed. -/
theorem decodeInstr_encode {inp : DecodeInput} {pos : ℕ} {i : CfaInstr}
    (haddr : inp.addrlen = 4 ∨ inp.addrlen = 8) (hfixed : i.FixedFits inp.addrlen)
    (hint : i.IntFits) (hlimit : inp.limit < 2 ^ 64)
    (hlim : pos + (i.encode inp.hostBig inp.useHostByteOrder inp.addrlen).length ≤ inp.limit)
    (hmem : HoldsAt inp.mem pos (i.encode inp.hostBig inp.useHostByteOrder inp.addrlen)) :
    decodeInstr inp pos = (do
      let op ← readBack inp.daf pos i
      return (op, pos + (i.encode inp.hostBig inp.useHostByteOrder inp.addrlen).length)) := by
  obtain ⟨hfirst, hrest⟩ := hmem
  obtain ⟨hcode, hbyte⟩ := ofCode_firstByte hfixed
  have hlen : pos + (i.encode inp.hostBig inp.useHostByteOrder inp.addrlen).length =
      pos + 1 + (i.operandBytes inp.hostBig inp.useHostByteOrder inp.addrlen).length := by
    rw [CfaInstr.encode, List.length_cons]
    omega
  rw [hlen] at hlim ⊢
  have hbound : ∀ x ∈ i.lebOperands, -2 ^ 31 ≤ x ∧ x < 2 ^ 31 := hint
  rw [decodeInstr, hfirst]
  simp only [hcode, hbyte]
  cases i <;> simp only [CfaInstr.lebOperands, List.forall_mem_cons, List.not_mem_nil,
    false_implies, implies_true, and_true] at hbound
  case advanceLoc delta =>
    have hlow := (firstByte_packed _ (.inl rfl) ⟨delta, hfixed⟩).2.2
    simp only [CfaInstr.opcode, CfaInstr.firstByte, CfaInstr.packed] at hlow ⊢
    rw [hlow, setWidth_ofNat_byte (Nat.lt_trans hfixed (by norm_num)) (by norm_num)]
    rfl
  case advanceLoc1 delta =>
    obtain ⟨hb, -⟩ := hrest
    simp only [CfaInstr.opcode, hb]
    rw [setWidth_ofNat_byte hfixed (by norm_num)]
    rfl
  case advanceLoc2 delta =>
    exact fixedOffset_encode (n := 2) (by norm_num) hfixed hlim hrest
  case advanceLoc4 delta =>
    exact fixedOffset_encode (n := 4) (by norm_num) hfixed hlim hrest
  case setLoc addr =>
    rw [CfaInstr.operandBytes, fixedBytes_length] at *
    simp only [CfaInstr.opcode, readAddr_bytes haddr hfixed hlim hrest]
    rfl
  case offset r n =>
    have hlow := (firstByte_packed _ (.inr (.inl rfl)) ⟨r, hfixed⟩).2.2
    refine (packedRegisterAndFactoredOffset_encode (by omega) hlim hrest).trans ?_
    simp only [CfaInstr.opcode, CfaInstr.firstByte, CfaInstr.packed] at hlow ⊢
    rw [hlow, setWidth_ofNat_byte (Nat.lt_trans hfixed (by norm_num)) (by norm_num), readBack,
      bind_assoc]
    rfl
  case offsetExtended r n =>
    exact uleb128RegisterAndFactoredOffset_encode (by omega)
      (fun _ => readUleb128_ofNat (by omega)) hlim hrest
  case offsetExtendedSf r z =>
    refine (uleb128RegisterSleb128Offset_encode (by omega)
      (fun _ => readSleb128_ofInt (by omega) (by omega)) hlim hrest).trans ?_
    rw [readBack, bind_assoc]
    rfl
  case restore r =>
    have hlow := (firstByte_packed _ (.inr (.inr rfl)) ⟨r, hfixed⟩).2.2
    simp only [CfaInstr.opcode, CfaInstr.firstByte, CfaInstr.packed] at hlow ⊢
    rw [hlow, setWidth_ofNat_byte (Nat.lt_trans hfixed (by norm_num)) (by norm_num)]
    rfl
  case restoreExtended r => exact uleb128RegisterOnly_encode (by omega) hlim hrest
  case undefined r => exact uleb128RegisterOnly_encode (by omega) hlim hrest
  case sameValue r => exact uleb128RegisterOnly_encode (by omega) hlim hrest
  case register r r' => exact uleb128RegisterAndOffset_encode (by omega) (by omega) hlim hrest
  case rememberState => rfl
  case restoreState => rfl
  case defCfa r n => exact uleb128RegisterAndOffset_encode (by omega) (by omega) hlim hrest
  case defCfaSf r z =>
    refine (uleb128RegisterSleb128Offset_encode (by omega)
      (fun _ => readSleb128_ofInt (by omega) (by omega)) hlim hrest).trans ?_
    rw [readBack, bind_assoc]
    rfl
  case defCfaRegister r => exact uleb128RegisterOnly_encode (by omega) hlim hrest
  case defCfaOffset n => exact uleb128OffsetOnly_encode (by omega) hlim hrest
  case defCfaOffsetSf z =>
    refine (sleb128OffsetOnly_encode (by omega) (by omega) hlim hrest).trans ?_
    rw [readBack, bind_assoc]
    rfl
  case defCfaExpression block => exact uleb128Block_encode (by omega) hlim hlimit hrest
  case expression r block =>
    exact uleb128RegisterAndBlock_encode (by omega) (by omega) hlim hlimit hrest
  case valOffset r n =>
    refine (uleb128RegisterSleb128Offset_encode (by omega)
      (fun _ => readSleb128_ofNat (by omega)) hlim hrest).trans ?_
    rw [readBack, bind_assoc]
    rfl
  case valOffsetSf r z =>
    exact uleb128RegisterAndFactoredOffset_encode (by omega)
      (fun _ => readUleb128_ofInt (by omega) (by omega)) hlim hrest
  case valExpression r block =>
    exact uleb128RegisterAndBlock_encode (by omega) (by omega) hlim hlimit hrest
  case gnuArgsSize n => exact uleb128OffsetOnly_encode (by omega) hlim hrest
  case nop => rfl

/-! ### A list of instructions -/

/-- What the decoder makes of an encoded list at address `pos`. -/
def readBackList (inp : DecodeInput) : ℕ → List CfaInstr → Except Fault (List FrameOp)
  | _, [] => .ok []
  | pos, i :: is => do
    let op ← readBack inp.daf pos i
    let ops ← readBackList inp
      (pos + (i.encode inp.hostBig inp.useHostByteOrder inp.addrlen).length) is
    return op :: ops

/-- **An encoded list is decoded instruction by instruction**, and the decoder
stops at the end of the block. -/
theorem frameInstrlist_encode (inp : DecodeInput) (haddr : inp.addrlen = 4 ∨ inp.addrlen = 8)
    (hlimit : inp.limit < 2 ^ 64) {is : List CfaInstr} {pos fuel : ℕ}
    (hfixed : ∀ i ∈ is, i.FixedFits inp.addrlen) (hint : ∀ i ∈ is, i.IntFits)
    (hlim : pos + (encodeList inp.hostBig inp.useHostByteOrder inp.addrlen is).length = inp.limit)
    (hmem : HoldsAt inp.mem pos (encodeList inp.hostBig inp.useHostByteOrder inp.addrlen is))
    (hfuel : is.length ≤ fuel) :
    frameInstrlist inp fuel pos = (do
      let ops ← readBackList inp pos is
      return (ops, inp.limit)) := by
  induction is generalizing pos fuel with
  | nil =>
    have hpos : pos = inp.limit := hlim
    cases fuel <;> simp only [frameInstrlist, hpos, lt_irrefl, if_false] <;> rfl
  | cons i is ih =>
    obtain ⟨fuel, rfl⟩ := Nat.exists_eq_succ_of_ne_zero
      (by rw [List.length_cons] at hfuel; omega : fuel ≠ 0)
    rw [encodeList, List.flatMap_cons, ← encodeList] at hlim hmem
    obtain ⟨hm1, hm2⟩ := (holdsAt_append _ _ _ _).1 hmem
    rw [List.length_append, ← add_assoc] at hlim
    have hhead := decodeInstr_encode haddr (hfixed i (by simp)) (hint i (by simp)) hlimit
      (by omega) hm1
    have hnonempty : pos < inp.limit := by
      rw [CfaInstr.encode, List.length_cons] at hlim
      omega
    rw [Nat.succ_eq_add_one, frameInstrlist, if_pos hnonempty, hhead, readBackList]
    simp only [bind_assoc, pure_bind]
    rw [ih (fun j hj => hfixed j (by simp [hj])) (fun j hj => hint j (by simp [hj])) hlim hm2
      (by simpa using hfuel)]
    simp only [bind_assoc, pure_bind]

end Frame
end Dwarfpp
