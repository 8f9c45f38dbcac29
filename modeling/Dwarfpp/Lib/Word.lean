/-
# Machine words as integers

How the bit operations of a `BitVec` act on the integer it was made from:
shifts multiply and divide by powers of two, joining words without a common bit
adds them, and multiples of the modulus disappear.
-/

import Mathlib

namespace Dwarfpp
namespace Lib

/-- A value below `2 ^ k` and a multiple of `2 ^ k` have no bit in common. -/
theorem toNat_or_of_lt {w : ℕ} {x y : BitVec w} {k a : ℕ} (hx : x.toNat < 2 ^ k)
    (hy : y.toNat = 2 ^ k * a) : (x ||| y).toNat = x.toNat + y.toNat := by
  rw [BitVec.toNat_or, hy, Nat.lor_comm, ← Nat.two_pow_add_eq_or_of_lt hx]
  omega

/-- Joining a piece to an accumulator that has no bit at or above `k` adds it. -/
theorem or_eq_add {w : ℕ} {x y : BitVec w} {k a : ℕ} (hx : x.toNat < 2 ^ k)
    (hy : y.toNat = 2 ^ k * a) : x ||| y = x + y := by
  have hor := toNat_or_of_lt hx hy
  have hlt := (x ||| y).isLt
  apply BitVec.eq_of_toNat_eq
  rw [BitVec.toNat_add, ← hor, Nat.mod_eq_of_lt hlt]

theorem ofInt_shiftLeft (w : ℕ) (z : ℤ) (k : ℕ) :
    BitVec.ofInt w z <<< k = BitVec.ofInt w (z * 2 ^ k) := by
  have htwo : BitVec.twoPow w k = BitVec.ofInt w (2 ^ k) := by
    apply BitVec.eq_of_toNat_eq
    rw [BitVec.toNat_twoPow, BitVec.toNat_ofInt]
    norm_cast
  rw [BitVec.shiftLeft_eq_mul_twoPow, htwo, BitVec.ofInt_mul]

theorem ofInt_add_mul (w : ℕ) (z c : ℤ) :
    BitVec.ofInt w (z + 2 ^ w * c) = BitVec.ofInt w z := by
  apply BitVec.eq_of_toNat_eq
  rw [BitVec.toNat_ofInt, BitVec.toNat_ofInt]
  congr 1
  push_cast
  exact Int.add_mul_emod_self_left z _ c

/-- Shifting a word up to the top and arithmetically down again keeps its low
`64 - k` bits, as a signed number. -/
theorem sshiftRight_shiftLeft {k : ℕ} (hk : k ≤ 63) {z c : ℤ} (h1 : -2 ^ (63 - k) ≤ z)
    (h2 : z < 2 ^ (63 - k)) :
    (BitVec.ofInt 64 (z + 2 ^ (64 - k) * c) <<< k).sshiftRight k = BitVec.ofInt 64 z := by
  have h63 : (2 : ℤ) ^ 63 = 2 ^ (63 - k) * 2 ^ k := by rw [← pow_add, Nat.sub_add_cancel hk]
  have h64 : (2 : ℤ) ^ 64 = 2 ^ (64 - k) * 2 ^ k := by
    rw [← pow_add, Nat.sub_add_cancel (by omega)]
  have hpos : (0 : ℤ) < 2 ^ k := by positivity
  have hlo : -2 ^ 63 ≤ z * 2 ^ k := by
    rw [h63, ← neg_mul]; exact Int.mul_le_mul_of_nonneg_right h1 hpos.le
  have hhi : z * 2 ^ k < 2 ^ 63 := by
    rw [h63]; exact Int.mul_lt_mul_of_pos_right h2 hpos
  have hz : -2 ^ 63 ≤ z ∧ z < 2 ^ 63 := by
    have hle : (2 : ℤ) ^ (63 - k) ≤ 2 ^ 63 := by
      rw [h63]; exact le_mul_of_one_le_right (by positivity) hpos
    omega
  rw [ofInt_shiftLeft, add_mul, mul_right_comm, ← h64, ofInt_add_mul]
  apply BitVec.eq_of_toInt_eq
  rw [BitVec.toInt_sshiftRight, BitVec.toInt_ofInt_eq_self (by norm_num) hlo hhi,
    BitVec.toInt_ofInt_eq_self (by norm_num) hz.1 hz.2, Int.shiftRight_eq_div_pow]
  push_cast
  exact Int.mul_ediv_cancel z hpos.ne'

/-- A number cut to `w` bits is itself again when these are extended as signed. -/
theorem signExtend_setWidth_ofInt {w : ℕ} (hw : w ≤ 64) {v : ℤ} (hlo : -2 ^ w ≤ 2 * v)
    (hhi : 2 * v < 2 ^ w) :
    ((BitVec.ofInt 64 (v % 2 ^ w)).setWidth w).signExtend 64 = BitVec.ofInt 64 v := by
  have hpow : (2 : ℤ) ^ w ∣ 2 ^ 64 := pow_dvd_pow 2 hw
  have hle : (2 : ℤ) ^ w ≤ 2 ^ 64 := Int.le_of_dvd (by norm_num) hpow
  apply BitVec.eq_of_toInt_eq
  have hmod : ((BitVec.ofInt 64 (v % 2 ^ w)).toNat : ℤ) % ((2 ^ w : ℕ) : ℤ) = v % 2 ^ w := by
    rw [BitVec.toNat_ofInt, Int.toNat_of_nonneg (Int.emod_nonneg _ (by norm_num))]
    have hcast : ((2 ^ w : ℕ) : ℤ) = 2 ^ w := by push_cast; rfl
    have hcast' : ((2 ^ 64 : ℕ) : ℤ) = 2 ^ 64 := by norm_num
    rw [hcast, hcast', Int.emod_emod_of_dvd _ hpow, Int.emod_emod_of_dvd _ (dvd_refl _)]
  rw [BitVec.toInt_signExtend_of_le hw, BitVec.toInt_setWidth, ← Int.emod_bmod, hmod,
    BitVec.toInt_ofInt_eq_self (by norm_num) (by omega) (by omega)]
  have hself : v.bmod (2 ^ w) = v := by
    apply Int.bmod_eq_of_le_mul_two
    · push_cast; omega
    · push_cast; omega
  have hemod := Int.emod_bmod v (2 ^ w)
  push_cast at hemod
  rw [hemod, hself]

/-- Words whose sum does not overflow add as numbers do. -/
theorem toNat_sum {w : ℕ} {ws : List (BitVec w)} (h : (ws.map BitVec.toNat).sum < 2 ^ w) :
    ws.sum.toNat = (ws.map BitVec.toNat).sum := by
  induction ws with
  | nil => rfl
  | cons x ws ih =>
    rw [List.map_cons, List.sum_cons] at h ⊢
    rw [List.sum_cons, BitVec.toNat_add, ih (by omega)]
    exact Nat.mod_eq_of_lt h

end Lib
end Dwarfpp
