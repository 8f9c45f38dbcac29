/-
# Encoded pointers of `.eh_frame`

`FrameSection::read_with_encoding` and `FrameSection::encoding_nbytes`
(`src/frame.cpp`).  The low four bits of an encoding are its format; the fixed
readers return an unsigned word of their own width, which is then widened, so a
negative number of a narrow signed format comes back as a positive one
(`roundTrips_iff`).
-/

import Dwarfpp.Frame.Readers

namespace Dwarfpp
namespace Frame

open Lib

/-- `(read_be ? read_nbyte_be : read_nbyte_le)(pos, limit)`. -/
def readFixed (hostBig useHostByteOrder : Bool) (n : ℕ) (mem : Memory) (pos limit : ℕ) :
    Except Fault (BitVec 64 × ℕ) :=
  if xor (!hostBig) useHostByteOrder then readBe n mem pos limit else readLe n mem pos limit

/-- `read_with_encoding`.  `DW_EH_PE_omit` is skipped; no other encoding has its low bits, so that
its `case` is not reached. -/
def readWithEncoding (hostBig : Bool) (encoding : Byte) (mem : Memory) (pos limit addressSize : ℕ)
    (useHostByteOrder : Bool) : Except Fault (BitVec 64 × ℕ) :=
  let fixed := fun n => readFixed hostBig useHostByteOrder n mem pos limit
  if encoding = 0xff then .ok (0, pos)
  else match (encoding &&& ~~~0xf0).toNat with
    -- `DW_EH_PE_absptr`
    | 0x0 => if addressSize = 8 then fixed 8 else do
      assert (addressSize = 4)
      fixed 4
    -- `DW_EH_PE_uleb128`, `DW_EH_PE_udata2`, `DW_EH_PE_udata4`, `DW_EH_PE_udata8`
    | 0x1 => readUleb128 mem pos limit
    | 0x2 => fixed 2
    | 0x3 => fixed 4
    | 0x4 => fixed 8
    -- `DW_EH_PE_signed`
    | 0x8 => if addressSize = 8 then fixed 8 else do
      assert (addressSize = 4)
      fixed 4
    -- `DW_EH_PE_sleb128`, `DW_EH_PE_sdata2`, `DW_EH_PE_sdata4`, `DW_EH_PE_sdata8`
    | 0x9 => readSleb128 mem pos limit
    | 0xa => fixed 2
    | 0xb => fixed 4
    | 0xc => fixed 8
    | _ => .error .assertFailed

/-- `encoding_nbytes`. -/
def encodingNbytes (hostBig : Bool) (encoding : Byte) (mem : Memory) (bytes limit addressSize : ℕ) :
    Except Fault ℕ :=
  if encoding = 0xff then .ok 0
  else do
    let (_, tmpBytes) ← readWithEncoding hostBig encoding mem bytes limit addressSize true
    return tmpBytes - bytes

/-- The formats of fixed width. -/
inductive EhFormat
  | absptr | signed | udata2 | udata4 | udata8 | sdata2 | sdata4 | sdata8
  deriving DecidableEq, Repr

namespace EhFormat

/-- The low bits of an encoding. -/
def code : EhFormat → Byte
  | absptr => 0x0 | udata2 => 0x2 | udata4 => 0x3 | udata8 => 0x4
  | signed => 0x8 | sdata2 => 0xa | sdata4 => 0xb | sdata8 => 0xc

/-- The bytes of an encoded pointer. -/
def width (addressSize : ℕ) : EhFormat → ℕ
  | absptr | signed => addressSize
  | udata2 | sdata2 => 2
  | udata4 | sdata4 => 4
  | udata8 | sdata8 => 8

/-- The format is one of signed numbers. -/
def IsSigned : EhFormat → Prop
  | signed | sdata2 | sdata4 | sdata8 => True
  | _ => False

/-- The values that a format has. -/
def Representable (addressSize : ℕ) (f : EhFormat) (v : ℤ) : Prop :=
  (f.IsSigned → -256 ^ f.width addressSize ≤ 2 * v ∧ 2 * v < 256 ^ f.width addressSize) ∧
    (¬f.IsSigned → 0 ≤ v ∧ v < 256 ^ f.width addressSize)

/-- The bytes of a value, in two's complement. -/
def encode (hostBig useHostByteOrder : Bool) (addressSize : ℕ) (f : EhFormat) (v : ℤ) :
    List Byte :=
  fixedBytes hostBig useHostByteOrder (f.width addressSize)
    (v % 256 ^ f.width addressSize).toNat

end EhFormat

/-- A value is read back from its encoding, with any of the upper bits, in any place. -/
def RoundTrips (hostBig useHostByteOrder : Bool) (addressSize : ℕ) (f : EhFormat) (v : ℤ) : Prop :=
  ∀ (encoding : Byte) (mem : Memory) (pos limit : ℕ), encoding &&& ~~~0xf0 = f.code →
    HoldsAt mem pos (f.encode hostBig useHostByteOrder addressSize v) →
    pos + f.width addressSize ≤ limit →
    readWithEncoding hostBig encoding mem pos limit addressSize useHostByteOrder =
        .ok (BitVec.ofInt 64 v, pos + f.width addressSize) ∧
      encodingNbytes hostBig encoding mem pos limit addressSize = .ok (f.width addressSize)

section Reading

variable {hostBig useHost : Bool} {encoding : Byte} {mem : Memory} {pos limit addressSize : ℕ}
  {f : EhFormat} {v : ℤ}

theorem EhFormat.width_cases (haddr : addressSize = 4 ∨ addressSize = 8) :
    f.width addressSize = 2 ∨ f.width addressSize = 4 ∨ f.width addressSize = 8 := by
  cases f
  case absptr | signed => exact .inr haddr
  all_goals simp [EhFormat.width]

theorem EhFormat.width_le (haddr : addressSize = 4 ∨ addressSize = 8) :
    f.width addressSize ≤ 8 := by
  cases f <;> simp only [EhFormat.width] <;> omega

theorem EhFormat.width_pos (haddr : addressSize = 4 ∨ addressSize = 8) :
    0 < f.width addressSize := by
  cases f <;> simp only [EhFormat.width] <;> omega

/-- An encoding of a fixed format is not the one that is skipped. -/
theorem encoding_ne_omit (henc : encoding &&& ~~~0xf0 = f.code) : encoding ≠ 0xff := by
  rintro rfl
  revert henc
  cases f <;> decide

/-- A fixed format is read by the reader of its width. -/
theorem readWithEncoding_eq (haddr : addressSize = 4 ∨ addressSize = 8)
    (henc : encoding &&& ~~~0xf0 = f.code) :
    readWithEncoding hostBig encoding mem pos limit addressSize useHost =
      readFixed hostBig useHost (f.width addressSize) mem pos limit := by
  have hcode : (encoding &&& ~~~0xf0).toNat = f.code.toNat := by rw [henc]
  rw [readWithEncoding]
  simp only [if_neg (encoding_ne_omit henc), hcode]
  cases f
  case absptr | signed =>
    rcases haddr with rfl | rfl <;> simp [EhFormat.code, EhFormat.width]
  all_goals simp [EhFormat.code, EhFormat.width]

/-- A fixed reader returns whatever the bytes are. -/
theorem readFixed_returns {n : ℕ} (hlim : pos + n ≤ limit) :
    ∃ w, readFixed hostBig useHost n mem pos limit = .ok (w, pos + n) := by
  rw [readFixed]
  split_ifs
  · exact ⟨_, by rw [readBe, assert_ok hlim]; rfl⟩
  · exact ⟨_, by rw [readLe, assert_ok hlim]; rfl⟩

theorem readFixed_bytes {n u : ℕ} (hn : n ≤ 8) (hu : u < 256 ^ n) (hlim : pos + n ≤ limit)
    (hmem : HoldsAt mem pos (fixedBytes hostBig useHost n u)) :
    readFixed hostBig useHost n mem pos limit = .ok (BitVec.ofNat 64 u, pos + n) := by
  have horder : xor (!hostBig) useHost = true ↔ hostBig = useHost := by
    cases hostBig <;> cases useHost <;> decide
  rw [fixedBytes] at hmem
  rw [readFixed]
  by_cases h : hostBig = useHost
  · rw [if_pos h] at hmem
    rw [if_pos (horder.2 h)]
    exact readBe_bytes hn hu hlim hmem
  · rw [if_neg h] at hmem
    rw [if_neg (mt horder.1 h)]
    exact readLe_bytes hn hu hlim hmem

/-- The number of bytes is right whatever they are. -/
theorem encodingNbytes_eq (haddr : addressSize = 4 ∨ addressSize = 8)
    (henc : encoding &&& ~~~0xf0 = f.code) (hlim : pos + f.width addressSize ≤ limit) :
    encodingNbytes hostBig encoding mem pos limit addressSize = .ok (f.width addressSize) := by
  obtain ⟨w, hw⟩ : ∃ w, readFixed hostBig true (f.width addressSize) mem pos limit =
      .ok (w, pos + f.width addressSize) := readFixed_returns hlim
  rw [encodingNbytes, if_neg (encoding_ne_omit henc), readWithEncoding_eq haddr henc, hw, ok_bind]
  show Except.ok (pos + f.width addressSize - pos) = _
  rw [Nat.add_sub_cancel_left]

/-- **What is read is the number modulo `256 ^ width`.** -/
theorem readWithEncoding_encode (haddr : addressSize = 4 ∨ addressSize = 8)
    (henc : encoding &&& ~~~0xf0 = f.code) (hlim : pos + f.width addressSize ≤ limit)
    (hmem : HoldsAt mem pos (f.encode hostBig useHost addressSize v)) :
    readWithEncoding hostBig encoding mem pos limit addressSize useHost =
      .ok (BitVec.ofInt 64 (v % 256 ^ f.width addressSize), pos + f.width addressSize) := by
  have hpos : (0 : ℤ) < 256 ^ f.width addressSize := by positivity
  have hnonneg := Int.emod_nonneg v hpos.ne'
  have hlt := Int.emod_lt_of_pos v hpos
  have hbytes : (v % 256 ^ f.width addressSize).toNat < 256 ^ f.width addressSize := by
    rw [Int.toNat_lt hnonneg]
    exact_mod_cast hlt
  rw [readWithEncoding_eq haddr henc, readFixed_bytes (EhFormat.width_le haddr) hbytes hlim hmem,
    ← BitVec.ofInt_natCast, Int.toNat_of_nonneg hnonneg]

/-- The number modulo `256 ^ width` stands for the same word just if nothing is cut off. -/
theorem ofInt_emod_iff (haddr : addressSize = 4 ∨ addressSize = 8)
    (hv : f.Representable addressSize v) :
    BitVec.ofInt 64 (v % 256 ^ f.width addressSize) = BitVec.ofInt 64 v ↔
      0 ≤ v ∨ f.width addressSize = 8 := by
  have hle : f.width addressSize ≤ 8 := EhFormat.width_le haddr
  have hpow : (256 : ℤ) ^ f.width addressSize ≤ 256 ^ 8 :=
    pow_le_pow_right₀ (by norm_num) hle
  have hbounds : v < 256 ^ f.width addressSize ∧ (v < 0 → -256 ^ f.width addressSize ≤ 2 * v) := by
    by_cases hs : f.IsSigned
    · have := hv.1 hs
      omega
    · have := hv.2 hs
      omega
  by_cases hw : f.width addressSize = 8
  · refine iff_of_true ?_ (.inr hw)
    apply BitVec.eq_of_toInt_eq
    have hmodulus : (256 : ℤ) ^ 8 = ((2 ^ 64 : ℕ) : ℤ) := by norm_num
    rw [hw, hmodulus, BitVec.toInt_ofInt, BitVec.toInt_ofInt]
    exact Int.emod_bmod v _
  · rw [or_iff_left hw]
    constructor
    · intro heq
      by_contra hneg
      have hpow' : (256 : ℤ) ^ f.width addressSize ≤ 256 ^ 7 :=
        pow_le_pow_right₀ (by norm_num) (by omega)
      have hmod : v % 256 ^ f.width addressSize = v + 256 ^ f.width addressSize := by
        rw [← Int.add_emod_right]
        exact Int.emod_eq_of_lt (by omega) (by omega)
      have hwords := congrArg BitVec.toInt heq
      rw [hmod, BitVec.toInt_ofInt_eq_self (by norm_num) (by omega) (by omega),
        BitVec.toInt_ofInt_eq_self (by norm_num) (by omega) (by omega)] at hwords
      omega
    · intro hnonneg
      rw [Int.emod_eq_of_lt hnonneg hbounds.1]

/-- **A value comes back just if it is not negative or the format has all eight bytes.** -/
theorem roundTrips_iff (haddr : addressSize = 4 ∨ addressSize = 8)
    (hv : f.Representable addressSize v) :
    RoundTrips hostBig useHost addressSize f v ↔ 0 ≤ v ∨ f.width addressSize = 8 := by
  rw [← ofInt_emod_iff haddr hv]
  constructor
  · intro h
    have hcode : f.code &&& ~~~0xf0 = f.code := by cases f <;> decide
    have hread := (h f.code (memoryOf 0 (f.encode hostBig useHost addressSize v)) 0 _ hcode
      (holdsAt_memoryOf _ _) (Nat.le_refl _)).1
    rw [readWithEncoding_encode haddr hcode (Nat.le_refl _) (holdsAt_memoryOf _ _)] at hread
    exact (Prod.mk.inj (Except.ok.inj hread)).1
  · intro heq encoding mem pos limit henc hmem hlim
    rw [readWithEncoding_encode haddr henc hlim hmem, heq]
    exact ⟨rfl, encodingNbytes_eq haddr henc hlim⟩

end Reading

theorem roundTrips_sdata4 : RoundTrips false true 8 .sdata4 (-16) ↔
    0 ≤ (-16 : ℤ) ∨ EhFormat.sdata4.width 8 = 8 :=
  roundTrips_iff (.inr rfl) ⟨fun _ => by decide, fun h => absurd trivial h⟩

/-- A negative `DW_EH_PE_sdata4` comes back below `2 ^ 32`. -/
theorem not_roundTrips : ¬∀ (hostBig useHost : Bool) (addressSize : ℕ) (f : EhFormat) (v : ℤ),
    addressSize = 4 ∨ addressSize = 8 → f.Representable addressSize v →
      RoundTrips hostBig useHost addressSize f v := by
  intro h
  have hread := (h false true 8 .sdata4 (-16) (.inr rfl)
    ⟨fun _ => by decide, fun h => absurd trivial h⟩ 0x0b
    (memoryOf 0 (EhFormat.sdata4.encode false true 8 (-16))) 0 4 (by decide)
    (holdsAt_memoryOf _ _) (by decide)).1
  revert hread
  decide

end Frame
end Dwarfpp
