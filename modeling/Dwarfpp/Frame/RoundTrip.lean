/-
# Decoding the standard encoding

`meaning` is what the DWARF standard says an instruction carries: its opcode,
its register, its operand (a factored one multiplied by the data alignment
factor) and its block.  `view` reads the same out of a decoded record.

`frameInstrlist_view_iff` says exactly when the decoder returns the meaning of
every instruction: registers must fit the 16-bit field, factored products must
fit `Dwarf_Signed`, and the two opcodes `DW_CFA_val_offset` and
`DW_CFA_val_offset_sf`, which the decoder reads with each other's reader, agree
only on operands whose encoding has the same value under both readings.
-/

import Dwarfpp.Frame.Encoding

namespace Dwarfpp
namespace Frame

open Lib

/-- The content of an instruction. -/
structure Content where
  opcode : CfaOpcode
  register : ℕ
  operand : ℤ
  block : List Byte
  deriving DecidableEq

/-- The operand that DWARF gives the instruction under the data alignment factor `daf`. -/
def CfaInstr.operand (daf : ℤ) : CfaInstr → ℤ
  | advanceLoc n | advanceLoc1 n | advanceLoc2 n | advanceLoc4 n | setLoc n | register _ n
  | defCfa _ n | defCfaOffset n | gnuArgsSize n => n
  | offset _ n | offsetExtended _ n | valOffset _ n => daf * n
  | offsetExtendedSf _ n | defCfaSf _ n | defCfaOffsetSf n | valOffsetSf _ n => daf * n
  | defCfaExpression block | expression _ block | valExpression _ block => block.length
  | _ => 0

def CfaInstr.meaning (daf : ℤ) (i : CfaInstr) : Content :=
  ⟨i.opcode, i.reg, i.operand daf, i.block⟩

/-- A decoded record read as a user of it does: the address of `DW_CFA_set_loc`
unsigned, any other 64-bit field as `Dwarf_Signed`. -/
def FrameOp.view (mem : Memory) (op : FrameOp) : Option Content :=
  (CfaOpcode.ofCode op.opcode).map fun c =>
    { opcode := c
      register := op.fpRegister.toNat
      operand := if c = .setLoc then op.fpOffsetOrBlockLen.toNat else op.fpOffsetOrBlockLen.toInt
      block :=
        if op.fpExprBlock = 0 then []
        else slice mem op.fpExprBlock op.fpOffsetOrBlockLen.toNat }

/-- The operand fits `Dwarf_Signed`. -/
def FitsSigned (x : ℤ) : Prop := -2 ^ 63 ≤ x ∧ x < 2 ^ 63

/-- The condition under which the decoder gives the instruction its meaning. -/
def Faithful (daf : ℤ) (i : CfaInstr) : Prop :=
  i.reg < 2 ^ 16 ∧
    match i with
    | .offset _ n | .offsetExtended _ n => FitsSigned (daf * n)
    | .offsetExtendedSf _ n | .defCfaSf _ n | .defCfaOffsetSf n => FitsSigned (daf * n)
    | .valOffset _ n =>
      FitsSigned (daf * n) ∧ (daf = 0 ∨ n < 2 ^ (7 * (Leb.ofNat n).length - 1))
    | .valOffsetSf _ n =>
      FitsSigned (daf * n) ∧ (0 ≤ n ∨ 2 ^ 64 ∣ daf * 2 ^ (7 * (Leb.ofInt n).length))
    | _ => True

/-- `Faithful` in terms of what `read_uleb128` delivers for a signed operand; it is the
condition on the whole range of `int`. -/
def ReadFaithful (daf : ℤ) (i : CfaInstr) : Prop :=
  match i with
  | .valOffsetSf r n =>
    r < 2 ^ 16 ∧ FitsSigned (daf * n) ∧ 2 ^ 64 ∣ daf * (unsignedRead (Leb.ofInt n) - n)
  | i => Faithful daf i

/-! ### Products in a 64-bit field -/

theorem bmod_eq_iff {x t : ℤ} : x.bmod (2 ^ 64) = t ↔ FitsSigned t ∧ 2 ^ 64 ∣ x - t := by
  have h := Int.bmod_emod (x := x) (m := 2 ^ 64)
  have hlo := Int.le_bmod (x := x) (m := 2 ^ 64) (by norm_num)
  have hhi := Int.bmod_lt (x := x) (m := 2 ^ 64) (by norm_num)
  unfold FitsSigned
  norm_num at *
  omega

theorem toInt_mul_ofInt (daf : BitVec 64) (z : ℤ) :
    (daf * BitVec.ofInt 64 z).toInt = (daf.toInt * z).bmod (2 ^ 64) := by
  rw [BitVec.toInt_mul, BitVec.toInt_ofInt, Int.mul_bmod_bmod]

theorem mulSigned_eq_ok {a b w : BitVec 64} :
    mulSigned a b = .ok w ↔
      FitsSigned (a.toInt * b.toInt) ∧ w = BitVec.ofInt 64 (a.toInt * b.toInt) := by
  unfold mulSigned FitsSigned
  split_ifs with h
  · exact ⟨fun hw => ⟨h, (Except.ok.inj hw).symm⟩, fun hw => by rw [hw.2]⟩
  · exact ⟨fun hw => (nomatch hw), fun hw => absurd hw.1 h⟩

theorem toInt_ofInt_of_fits {z : ℤ} (h : FitsSigned z) : (BitVec.ofInt 64 z).toInt = z :=
  BitVec.toInt_ofInt_eq_self (by norm_num) h.1 h.2

/-- Bit 6 of the last byte of an unsigned number is clear when the number is small
for its length. -/
theorem not_negative_iff (l : Leb) : ¬l.negative ↔ l.unsigned < 2 ^ (7 * l.length - 1) := by
  have heq := l.signed_eq
  have hb := l.signed_bounds
  have hpow : (2 : ℤ) ^ (7 * l.length) = 2 * 2 ^ (7 * l.length - 1) := by
    have := l.length_pos
    rw [← pow_succ', show 7 * l.length - 1 + 1 = 7 * l.length by omega]
  have hcast : ((2 ^ (7 * l.length - 1) : ℕ) : ℤ) = 2 ^ (7 * l.length - 1) := by push_cast; rfl
  split_ifs at heq with h
  · exact ⟨fun hn => absurd h hn, fun hn => by omega⟩
  · exact ⟨fun _ => by omega, fun _ => h⟩

/-! ### One instruction -/

theorem opcode_make (c : CfaOpcode) (reg : ℕ) (off : BitVec 64) (block : ℕ) :
    (FrameOp.make c reg off block).opcode = c.code := by
  have hbyte : (FrameOp.ofByte c.code).opcode = c.code := by cases c <;> decide
  exact hbyte

theorem view_make (mem : Memory) (c : CfaOpcode) (reg : ℕ) (off : BitVec 64) (block : ℕ) :
    (FrameOp.make c reg off block).view mem =
      some ⟨c, reg % 2 ^ 16, if c = .setLoc then off.toNat else off.toInt,
        if block = 0 then [] else slice mem block off.toNat⟩ := by
  rw [FrameOp.view, opcode_make, CfaOpcode.ofCode_code]
  simp only [FrameOp.make, BitVec.toNat_ofNat, Option.map_some]
  rfl

theorem reg_eq_iff {r : ℕ} : r % 2 ^ 16 = r ↔ r < 2 ^ 16 :=
  ⟨fun h => h ▸ Nat.mod_lt _ (by norm_num), Nat.mod_eq_of_lt⟩

/-- The record of an unfactored operand: only the register can be cut. -/
theorem view_plain_iff {mem : Memory} {c : CfaOpcode} {reg n : ℕ} (hc : c ≠ .setLoc)
    (hn : n < 2 ^ 63) :
    (FrameOp.make c reg (BitVec.ofNat 64 n) 0).view mem = some ⟨c, reg, n, []⟩ ↔ reg < 2 ^ 16 := by
  have hword : (BitVec.ofNat 64 n).toInt = n := by
    rw [← BitVec.ofInt_natCast]
    exact toInt_ofInt_of_fits ⟨by omega, by omega⟩
  rw [view_make, if_neg hc, if_pos rfl, hword, Option.some.injEq, Content.mk.injEq, ← reg_eq_iff]
  simp

/-- The record of a factored operand: the product must be the intended one. -/
theorem view_factored_iff {mem : Memory} {c : CfaOpcode} {reg : ℕ} {w : BitVec 64} {t : ℤ}
    (hc : c ≠ .setLoc) :
    (FrameOp.make c reg w 0).view mem = some ⟨c, reg, t, []⟩ ↔ reg < 2 ^ 16 ∧ w.toInt = t := by
  rw [view_make, if_neg hc, if_pos rfl, Option.some.injEq, Content.mk.injEq, ← reg_eq_iff]
  simp

/-- The record of a block: it is read back from its address. -/
theorem view_block_iff {mem : Memory} {c : CfaOpcode} {reg a : ℕ} {block : List Byte}
    (hc : c ≠ .setLoc) (hn : block.length < 2 ^ 63) (ha : a ≠ 0) (hmem : HoldsAt mem a block) :
    (FrameOp.make c reg (BitVec.ofNat 64 block.length) a).view mem =
      some ⟨c, reg, block.length, block⟩ ↔ reg < 2 ^ 16 := by
  have hword : (BitVec.ofNat 64 block.length).toInt = block.length := by
    rw [← BitVec.ofInt_natCast]
    exact toInt_ofInt_of_fits ⟨by omega, by omega⟩
  have hnat : (BitVec.ofNat 64 block.length).toNat = block.length := by
    rw [BitVec.toNat_ofNat, Nat.mod_eq_of_lt (by omega)]
  rw [view_make, if_neg hc, if_neg ha, hword, hnat, slice_of_holdsAt hmem, Option.some.injEq,
    Content.mk.injEq, ← reg_eq_iff]
  simp

/-- A signed product that is computed: `w` is the second factor as it was read. -/
theorem mulSigned_view_iff {mem : Memory} {daf : BitVec 64} {c : CfaOpcode} {reg : ℕ} {w t : ℤ}
    (hc : c ≠ .setLoc) (hw : FitsSigned w) :
    (∃ op, (do return FrameOp.make c reg (← mulSigned daf (BitVec.ofInt 64 w)) 0 :
        Except Fault FrameOp) = .ok op ∧ op.view mem = some ⟨c, reg, t, []⟩) ↔
      reg < 2 ^ 16 ∧ FitsSigned (daf.toInt * w) ∧ daf.toInt * w = t := by
  constructor
  · rintro ⟨op, hop, hview⟩
    obtain ⟨product, hmul, hmake⟩ := bind_eq_ok.1 hop
    obtain ⟨hfits, rfl⟩ := mulSigned_eq_ok.1 hmul
    obtain rfl := Except.ok.inj hmake
    rw [toInt_ofInt_of_fits hw] at hfits hview
    obtain ⟨hreg, ht⟩ := (view_factored_iff hc).1 hview
    exact ⟨hreg, hfits, by rw [← ht, toInt_ofInt_of_fits hfits]⟩
  · rintro ⟨hreg, hfits, rfl⟩
    refine ⟨FrameOp.make c reg (BitVec.ofInt 64 (daf.toInt * w)) 0, ?_, ?_⟩
    · have hmul : mulSigned daf (BitVec.ofInt 64 w) = .ok (BitVec.ofInt 64 (daf.toInt * w)) :=
        mulSigned_eq_ok.2 (by rw [toInt_ofInt_of_fits hw]; exact ⟨hfits, rfl⟩)
      rw [hmul]
      rfl
    · exact (view_factored_iff hc).2 ⟨hreg, toInt_ofInt_of_fits hfits⟩

theorem exists_ok_iff {α : Type} {x : α} {p : α → Prop} :
    (∃ a, (Except.ok x : Except Fault α) = .ok a ∧ p a) ↔ p x :=
  ⟨fun ⟨_, h, hp⟩ => Except.ok.inj h ▸ hp, fun hp => ⟨x, rfl, hp⟩⟩

theorem fits_of_int {x : ℤ} (h : -2 ^ 31 ≤ x ∧ x < 2 ^ 31) : FitsSigned x :=
  ⟨by omega, by omega⟩

/-- An unsigned product with a number that was read: it is the intended one up to
the modulus. -/
theorem toInt_mul_eq_iff {daf : BitVec 64} {w t : ℤ} :
    (daf * BitVec.ofInt 64 w).toInt = t ↔ FitsSigned t ∧ 2 ^ 64 ∣ daf.toInt * w - t := by
  rw [toInt_mul_ofInt, bmod_eq_iff]

theorem toInt_mul_ofNat_iff {daf : BitVec 64} {n : ℕ} :
    (daf * BitVec.ofNat 64 n).toInt = daf.toInt * n ↔ FitsSigned (daf.toInt * n) := by
  rw [← BitVec.ofInt_natCast, toInt_mul_eq_iff]
  simp

/-- The packed opcode: when the product is the intended one its assertion holds. -/
theorem offset_readBack_iff {mem : Memory} {daf : BitVec 64} {pos reg n : ℕ} :
    (∃ op, readBack daf pos (.offset reg n) = .ok op ∧
        op.view mem = some ⟨.offset, reg, daf.toInt * n, []⟩) ↔
      reg < 2 ^ 16 ∧ FitsSigned (daf.toInt * n) := by
  constructor
  · rintro ⟨op, hop, hview⟩
    obtain ⟨_, -, hmake⟩ := bind_eq_ok.1 hop
    obtain rfl := Except.ok.inj hmake
    obtain ⟨hreg, ht⟩ := (view_factored_iff (by simp)).1 hview
    exact ⟨hreg, toInt_mul_ofNat_iff.1 ht⟩
  · rintro ⟨hreg, hfits⟩
    have hword := toInt_mul_ofNat_iff.2 hfits
    have hassert : daf.toInt < 0 → (daf * BitVec.ofNat 64 n).toInt ≤ 0 := fun hneg => by
      rw [hword]
      exact mul_nonpos_of_nonpos_of_nonneg hneg.le (Int.natCast_nonneg n)
    refine ⟨FrameOp.make .offset reg (daf * BitVec.ofNat 64 n) 0, ?_, ?_⟩
    · rw [readBack, assert_ok hassert]
      rfl
    · exact (view_factored_iff (by simp)).2 ⟨hreg, hword⟩

/-- The two readings of an unsigned operand agree when bit 6 of its last byte is clear. -/
theorem signed_ofNat_eq_iff {n : ℕ} :
    (Leb.ofNat n).signed = n ↔ n < 2 ^ (7 * (Leb.ofNat n).length - 1) := by
  have heq := (Leb.ofNat n).signed_eq
  have hiff := not_negative_iff (Leb.ofNat n)
  have hpos : (0 : ℤ) < 2 ^ (7 * (Leb.ofNat n).length) := by positivity
  rw [Leb.unsigned_ofNat] at heq hiff
  rw [← hiff, heq]
  split_ifs with h
  · exact ⟨fun he => by omega, fun hn => absurd h hn⟩
  · simp [h]

/-- The product with the wrong reading is the intended one when the readings agree,
or when everything is multiplied by zero. -/
theorem factored_signed_iff {daf : ℤ} {n : ℕ} :
    (FitsSigned (daf * (Leb.ofNat n).signed) ∧ daf * (Leb.ofNat n).signed = daf * n) ↔
      FitsSigned (daf * n) ∧ (daf = 0 ∨ n < 2 ^ (7 * (Leb.ofNat n).length - 1)) := by
  rw [← signed_ofNat_eq_iff]
  constructor
  · rintro ⟨hfits, heq⟩
    rw [heq] at hfits
    exact ⟨hfits, (mul_eq_mul_left_iff.1 heq).symm⟩
  · rintro ⟨hfits, h⟩
    have heq : daf * (Leb.ofNat n).signed = daf * n := mul_eq_mul_left_iff.2 h.symm
    rw [heq]
    exact ⟨hfits, rfl⟩

/-- `read_uleb128` on a signed operand: off by the weight of the run below zero. -/
theorem unsignedRead_ofInt {z : ℤ} (h : -2 ^ 27 ≤ z ∧ z ≤ 2 ^ 27) :
    unsignedRead (Leb.ofInt z) = z + if z < 0 then 2 ^ (7 * (Leb.ofInt z).length) else 0 := by
  have heq := (Leb.ofInt z).signed_eq
  have hlt := (Leb.ofInt z).unsigned_lt
  have hneg := Leb.negative_ofInt z
  rw [Leb.signed_ofInt] at heq
  have hsmall : (Leb.ofInt z).unsigned < 2 ^ 31 := by
    by_cases hz : z < 0
    · have hlen : (Leb.ofInt z).length ≤ 3 + 1 :=
        Leb.length_ofInt_le (by norm_num; omega) (by norm_num; omega)
      calc (Leb.ofInt z).unsigned < 2 ^ (7 * (Leb.ofInt z).length) := hlt
        _ ≤ 2 ^ 31 := Nat.pow_le_pow_right (by norm_num) (by omega)
    · rw [if_neg (fun hn => hz (hneg.1 hn))] at heq
      omega
  rw [unsignedRead_of_lt hsmall]
  simp only [← hneg]
  omega

/-- An instruction with an unfactored operand. -/
theorem readBack_plain_iff {mem : Memory} {c : CfaOpcode} {reg n : ℕ} (hc : c ≠ .setLoc)
    (hn : n < 2 ^ 63) :
    (∃ op, (.ok (.make c reg (BitVec.ofNat 64 n) 0) : Except Fault FrameOp) = .ok op ∧
      op.view mem = some ⟨c, reg, n, []⟩) ↔ reg < 2 ^ 16 ∧ True :=
  exists_ok_iff.trans ((view_plain_iff hc hn).trans (and_iff_left trivial).symm)

/-- An instruction with a block. -/
theorem readBack_block_iff {mem : Memory} {c : CfaOpcode} {reg a : ℕ} {block : List Byte}
    (hc : c ≠ .setLoc) (hn : block.length < 2 ^ 63) (ha : a ≠ 0) (hmem : HoldsAt mem a block) :
    (∃ op, (.ok (.make c reg (BitVec.ofNat 64 block.length) a) : Except Fault FrameOp) = .ok op ∧
      op.view mem = some ⟨c, reg, block.length, block⟩) ↔ reg < 2 ^ 16 ∧ True :=
  exists_ok_iff.trans ((view_block_iff hc hn ha hmem).trans (and_iff_left trivial).symm)

/-- An instruction with a signed factored operand, read as signed. -/
theorem readBack_signed_iff {mem : Memory} {daf : BitVec 64} {c : CfaOpcode} {reg : ℕ} {z : ℤ}
    (hc : c ≠ .setLoc) (hz : -2 ^ 31 ≤ z ∧ z < 2 ^ 31) :
    (∃ op, (do return FrameOp.make c reg (← mulSigned daf (BitVec.ofInt 64 z)) 0 :
        Except Fault FrameOp) = .ok op ∧ op.view mem = some ⟨c, reg, daf.toInt * z, []⟩) ↔
      reg < 2 ^ 16 ∧ FitsSigned (daf.toInt * z) :=
  (mulSigned_view_iff hc (fits_of_int hz)).trans (by simp)

/-- On small operands the two conditions are the same. -/
theorem readFaithful_iff {daf : ℤ} {i : CfaInstr} (hleb : i.LebFits (2 ^ 27)) :
    ReadFaithful daf i ↔ Faithful daf i := by
  cases i
  case valOffsetSf r z =>
    have hz := hleb z (by simp [CfaInstr.lebOperands])
    refine and_congr_right fun _ => and_congr_right fun _ => ?_
    rw [unsignedRead_ofInt hz, add_sub_cancel_left]
    split_ifs with hneg
    · exact ⟨.inr, fun h => h.resolve_left (by omega)⟩
    · simp [not_lt.1 hneg]
  all_goals rfl

/-- **One instruction is read back with its meaning exactly when it is faithful.** -/
theorem readBack_view_iff {hostBig useHost : Bool} {addrlen pos : ℕ} {mem : Memory}
    (daf : BitVec 64) {i : CfaInstr} (haddr : addrlen = 4 ∨ addrlen = 8)
    (hfixed : i.FixedFits addrlen) (hint : i.IntFits)
    (hmem : HoldsAt mem pos (i.encode hostBig useHost addrlen)) :
    (∃ op, readBack daf pos i = .ok op ∧ op.view mem = some (i.meaning daf.toInt)) ↔
      ReadFaithful daf.toInt i := by
  have hbound : ∀ x ∈ i.lebOperands, -2 ^ 31 ≤ x ∧ x < 2 ^ 31 := hint
  obtain ⟨-, hrest⟩ := hmem
  cases i <;> simp only [CfaInstr.lebOperands, List.forall_mem_cons, List.not_mem_nil,
    false_implies, implies_true, and_true] at hbound
  case advanceLoc n =>
    exact readBack_plain_iff (by simp) (Nat.lt_trans hfixed (by norm_num))
  case advanceLoc1 n =>
    exact readBack_plain_iff (by simp) (Nat.lt_trans hfixed (by norm_num))
  case advanceLoc2 n =>
    exact readBack_plain_iff (by simp) (Nat.lt_trans hfixed (by norm_num))
  case advanceLoc4 n =>
    exact readBack_plain_iff (by simp) (Nat.lt_trans hfixed (by norm_num))
  case setLoc a =>
    have ha : a < 2 ^ 64 := by
      have hwidth : a < 256 ^ addrlen := hfixed
      obtain rfl | rfl := haddr <;> norm_num at hwidth ⊢ <;> omega
    refine exists_ok_iff.trans ?_
    rw [view_make, BitVec.toNat_ofNat, Nat.mod_eq_of_lt ha]
    simp [CfaInstr.meaning, CfaInstr.opcode, CfaInstr.reg, CfaInstr.operand, CfaInstr.block,
      ReadFaithful, Faithful]
  case offset r n => exact offset_readBack_iff
  case offsetExtended r n =>
    exact exists_ok_iff.trans ((view_factored_iff (by simp)).trans
      (and_congr_right fun _ => toInt_mul_ofNat_iff))
  case offsetExtendedSf r z => exact readBack_signed_iff (by simp) hbound.2
  case restore r => exact readBack_plain_iff (n := 0) (by simp) (by norm_num)
  case restoreExtended r => exact readBack_plain_iff (n := 0) (by simp) (by norm_num)
  case undefined r => exact readBack_plain_iff (n := 0) (by simp) (by norm_num)
  case sameValue r => exact readBack_plain_iff (n := 0) (by simp) (by norm_num)
  case register r r' => exact readBack_plain_iff (by simp) (by omega)
  case rememberState => exact readBack_plain_iff (n := 0) (by simp) (by norm_num)
  case restoreState => exact readBack_plain_iff (n := 0) (by simp) (by norm_num)
  case defCfa r n => exact readBack_plain_iff (by simp) (by omega)
  case defCfaSf r z => exact readBack_signed_iff (by simp) hbound.2
  case defCfaRegister r => exact readBack_plain_iff (n := 0) (by simp) (by norm_num)
  case defCfaOffset n => exact readBack_plain_iff (by simp) (by omega)
  case defCfaOffsetSf z => exact readBack_signed_iff (by simp) hbound
  case defCfaExpression block =>
    rw [CfaInstr.operandBytes, holdsAt_append, Leb.bytes_length] at hrest
    exact readBack_block_iff (by simp) (by omega) (by omega) hrest.2
  case expression r block =>
    rw [CfaInstr.operandBytes, holdsAt_append, holdsAt_append, Leb.bytes_length,
      Leb.bytes_length] at hrest
    exact readBack_block_iff (by simp) (by omega) (by omega) hrest.2.2
  case valOffset r n =>
    refine (mulSigned_view_iff (by simp) ?_).trans (and_congr_right fun _ => ?_)
    · have h := signed_ofNat_bounds (n := n) (by omega)
      exact ⟨by omega, by omega⟩
    · exact factored_signed_iff
  case valOffsetSf r z =>
    refine exists_ok_iff.trans ((view_factored_iff (by simp)).trans (and_congr_right fun _ => ?_))
    rw [toInt_mul_eq_iff, mul_sub]
    rfl
  case valExpression r block =>
    rw [CfaInstr.operandBytes, holdsAt_append, holdsAt_append, Leb.bytes_length,
      Leb.bytes_length] at hrest
    exact readBack_block_iff (by simp) (by omega) (by omega) hrest.2.2
  case gnuArgsSize n => exact readBack_plain_iff (by simp) (by omega)
  case nop => exact readBack_plain_iff (n := 0) (by simp) (by norm_num)

/-! ### A list of instructions -/

theorem readBackList_view_iff (inp : DecodeInput) (haddr : inp.addrlen = 4 ∨ inp.addrlen = 8)
    {is : List CfaInstr} {pos : ℕ} (hfixed : ∀ i ∈ is, i.FixedFits inp.addrlen)
    (hint : ∀ i ∈ is, i.IntFits)
    (hmem : HoldsAt inp.mem pos (encodeList inp.hostBig inp.useHostByteOrder inp.addrlen is)) :
    (∃ ops, readBackList inp pos is = .ok ops ∧
        ops.map (FrameOp.view inp.mem) = is.map fun i => some (i.meaning inp.daf.toInt)) ↔
      ∀ i ∈ is, ReadFaithful inp.daf.toInt i := by
  induction is generalizing pos with
  | nil => simp [readBackList]
  | cons i is ih =>
    rw [encodeList, List.flatMap_cons, ← encodeList, holdsAt_append] at hmem
    have hhead := readBack_view_iff inp.daf haddr (hfixed i (by simp)) (hint i (by simp))
      hmem.1
    have htail := ih (fun j hj => hfixed j (by simp [hj])) (fun j hj => hint j (by simp [hj])) hmem.2
    rw [List.forall_mem_cons, ← hhead, ← htail, readBackList]
    constructor
    · rintro ⟨ops, hops, hmap⟩
      obtain ⟨op, hop, hops⟩ := bind_eq_ok.1 hops
      obtain ⟨ops', hops', hcons⟩ := bind_eq_ok.1 hops
      obtain rfl := Except.ok.inj hcons
      rw [List.map_cons, List.map_cons] at hmap
      obtain ⟨h1, h2⟩ := List.cons.inj hmap
      exact ⟨⟨op, hop, h1⟩, ops', hops', h2⟩
    · rintro ⟨⟨op, hop, h1⟩, ops, hops, h2⟩
      refine ⟨op :: ops, ?_, by rw [List.map_cons, List.map_cons, h1, h2]⟩
      rw [hop, ok_bind, hops]
      rfl

/-- Decoding from `pos` consumes exactly the block and yields the meaning of `is`. -/
def DecodesTo (inp : DecodeInput) (fuel pos : ℕ) (is : List CfaInstr) : Prop :=
  ∃ ops, frameInstrlist inp fuel pos = .ok (ops, inp.limit) ∧
    ops.map (FrameOp.view inp.mem) = is.map fun i => some (i.meaning inp.daf.toInt)

/-- **When the decoder inverts the standard encoding.**  For every list of
instructions whose operands fit, in either byte order, it yields the same
instructions with the same operands exactly when each is `Faithful`. -/
theorem decodesTo_iff_faithful {inp : DecodeInput} (haddr : inp.addrlen = 4 ∨ inp.addrlen = 8)
    (hlimit : inp.limit < 2 ^ 64) {is : List CfaInstr} {pos fuel : ℕ}
    (hfixed : ∀ i ∈ is, i.FixedFits inp.addrlen) (hleb : ∀ i ∈ is, i.LebFits (2 ^ 27))
    (hlim : pos + (encodeList inp.hostBig inp.useHostByteOrder inp.addrlen is).length = inp.limit)
    (hmem : HoldsAt inp.mem pos (encodeList inp.hostBig inp.useHostByteOrder inp.addrlen is))
    (hfuel : is.length ≤ fuel) :
    DecodesTo inp fuel pos is ↔ ∀ i ∈ is, Faithful inp.daf.toInt i := by
  have hint : ∀ i ∈ is, i.IntFits := fun i hi => .of_lebFits (hleb i hi)
  rw [← forall₂_congr fun i hi => readFaithful_iff (hleb i hi),
    ← readBackList_view_iff inp haddr hfixed hint hmem, DecodesTo,
    frameInstrlist_encode inp haddr hlimit hfixed hint hlim hmem hfuel]
  constructor
  · rintro ⟨ops, hops, hmap⟩
    obtain ⟨ops', hops', hpair⟩ := bind_eq_ok.1 hops
    obtain ⟨rfl, -⟩ := Prod.mk.inj (Except.ok.inj hpair)
    exact ⟨ops', hops', hmap⟩
  · rintro ⟨ops, hops, hmap⟩
    exact ⟨ops, by rw [hops]; rfl, hmap⟩

/-- A block holding the encoding of `is` at address 16, on a little-endian host
with eight-byte addresses. -/
def blockOf (daf : BitVec 64) (is : List CfaInstr) : DecodeInput where
  hostBig := false
  useHostByteOrder := true
  addrlen := 8
  daf := daf
  mem := memoryOf 16 (encodeList false true 8 is)
  limit := 16 + (encodeList false true 8 is).length

/-- A prologue: `def_cfa r7+16; offset r6 at cfa-16; advance_loc 4; set_loc`. -/
def prologue : List CfaInstr :=
  [.defCfa 7 16, .offset 6 2, .advanceLoc 4, .setLoc 0x401000, .valOffset 3 63]

/-- The hypotheses of `decodesTo_iff_faithful` are satisfiable, with a faithful list. -/
theorem decodesTo_prologue :
    DecodesTo (blockOf (-8) prologue) 5 16 prologue ↔ ∀ i ∈ prologue, Faithful (-8) i :=
  decodesTo_iff_faithful (.inr rfl) (by decide) (by decide) (by decide) rfl
    (holdsAt_memoryOf _ _) (by decide)

/-- The instruction `val_offset r3, 64` under the data alignment factor 1: its operand
is the byte `0x40`, which reads as `-64` when it is taken to be signed. -/
def valOffset64 : List CfaInstr := [.valOffset 3 64]

/-- **`DW_CFA_val_offset` is read with the signed reader**, so an operand of 64 comes
back as `-64`. -/
theorem valOffset64_not_decoded :
    (∀ i ∈ valOffset64, i.FixedFits 8 ∧ i.LebFits (2 ^ 27)) ∧
      HoldsAt (blockOf 1 valOffset64).mem 16 (encodeList false true 8 valOffset64) ∧
      ¬DecodesTo (blockOf 1 valOffset64) 1 16 valOffset64 := by
  refine ⟨by decide, holdsAt_memoryOf _ _, ?_⟩
  rintro ⟨ops, hops, hview⟩
  have hdecoded : frameInstrlist (blockOf 1 valOffset64) 1 16 =
      .ok ([.make .valOffset 3 (-64) 0], (blockOf 1 valOffset64).limit) := by decide
  rw [hdecoded] at hops
  obtain ⟨rfl, -⟩ := Prod.mk.inj (Except.ok.inj hops)
  exact absurd hview (by decide)

end Frame
end Dwarfpp
