/-
# The operand readers of the call-frame decoder

`read_uleb128`, `read_sleb128`, `read_{2,4,8}byte_{le,be}` and `read_addr` of
`src/frame.cpp`.  A reader takes the memory, the cursor `*cur` and the `limit`
of the block and returns the value read with the advanced cursor.

`read_uleb128` shifts each payload as a 32-bit `int` before it joins the 64-bit
accumulator, so a fifth byte keeps only its low four bits, the sign of that
nibble fills the upper half, and a sixth byte is a shift by more than the width.
`readUleb128_eq` states this exactly for every number of up to five bytes;
`readUleb128_unsigned` and `readSleb128_signed` are the two ranges on which the
readers return what DWARF says.
-/

import Mathlib
import Dwarfpp.Basic
import Dwarfpp.Lib.Leb128

namespace Dwarfpp
namespace Frame

open Lib

/-- `((**cur) & ~0x80) << k` as the 32-bit `int` it is computed in, converted to
the 64-bit accumulator. -/
def lebPiece (b : Byte) (k : ℕ) : BitVec 64 :=
  ((b &&& 0x7f).setWidth 32 <<< k).signExtend 64

/-- The `do`-`while` of `read_uleb128`.  The bound on the steps is the length of
the block: each step advances the cursor, which the assertion keeps below `limit`. -/
def readUleb128Loop (mem : Memory) (start limit : ℕ) :
    ℕ → ℕ → BitVec 64 → Except Fault (BitVec 64 × ℕ)
  | 0, _, _ => .error .outOfSteps
  | fuel + 1, cur, working =>
    if limit ≤ cur then .error .assertFailed
    else if 32 ≤ 7 * (cur - start) then .error .undefinedBehaviour
    else
      let working := working ||| lebPiece (mem cur) (7 * (cur - start))
      if 128 ≤ (mem cur).toNat then readUleb128Loop mem start limit fuel (cur + 1) working
      else .ok (working, cur + 1)

def readUleb128 (mem : Memory) (cur limit : ℕ) : Except Fault (BitVec 64 × ℕ) := do
  let (working, pos) ← readUleb128Loop mem cur limit (limit - cur + 1) cur 0#64
  assert (7 * (pos - cur) < 64)
  return (working, pos)

/-- `read_sleb128`: the unsigned reading, shifted up to the top and arithmetically
down again. -/
def readSleb128 (mem : Memory) (cur limit : ℕ) : Except Fault (BitVec 64 × ℕ) := do
  let (working, pos) ← readUleb128 mem cur limit
  let topBits := 64 - 7 * (pos - cur)
  return ((working <<< topBits).sshiftRight topBits, pos)

/-- The family `read_{2,4,8}byte_le`: advance, check, assemble. -/
def readLe (n : ℕ) (mem : Memory) (cur limit : ℕ) : Except Fault (BitVec 64 × ℕ) := do
  assert (cur + n ≤ limit)
  return (wordLe mem cur 0 n, cur + n)

/-- The family `read_{2,4,8}byte_be`. -/
def readBe (n : ℕ) (mem : Memory) (cur limit : ℕ) : Except Fault (BitVec 64 × ℕ) := do
  assert (cur + n ≤ limit)
  return (wordBe mem cur n, cur + n)

def read8byteLe := readLe 8
def read4byteLe := readLe 4
def read2byteLe := readLe 2
def read8byteBe := readBe 8
def read4byteBe := readBe 4
def read2byteBe := readBe 2

/-- `read_addr`.  `hostBig` is `host_is_big_endian()`. -/
def readAddr (hostBig : Bool) (addrlen : ℕ) (mem : Memory) (cur limit : ℕ)
    (useHostByteOrder : Bool) : Except Fault (BitVec 64 × ℕ) := do
  assert (addrlen = 4 ∨ addrlen = 8)
  let readBe := xor (!hostBig) useHostByteOrder
  if readBe && addrlen = 4 then read4byteBe mem cur limit
  else if readBe && addrlen = 8 then read8byteBe mem cur limit
  else if !readBe && addrlen = 4 then read4byteLe mem cur limit
  else read8byteLe mem cur limit

/-! ### What `read_uleb128` computes -/

/-- The value that the last byte of a number of `n` bytes contributes: as a fifth
byte it is shifted by 28 in 32 bits, where only its low nibble survives, signed. -/
def readTop (n : ℕ) (last : Byte) : ℤ :=
  if n = 5 then (last.toNat % 16 : ℕ) - (if last.toNat % 16 < 8 then 0 else 16)
  else last.toNat

theorem lebPiece_low : ∀ (i : Fin 4) (b : Byte),
    lebPiece b (7 * i) = BitVec.ofNat 64 (2 ^ (7 * i.val) * (b.toNat % 128)) := by
  unfold lebPiece
  decide +kernel

theorem lebPiece_fifth : ∀ b : Byte,
    lebPiece b 28 = BitVec.ofInt 64 (2 ^ 28 * readTop 5 b) := by
  unfold lebPiece readTop
  decide +kernel

theorem toNat_lebPiece_low (i : Fin 4) (b : Byte) :
    (lebPiece b (7 * i)).toNat = 2 ^ (7 * i.val) * (b.toNat % 128) := by
  have hi : 2 ^ (7 * i.val) ≤ 2 ^ 21 := Nat.pow_le_pow_right (by norm_num) (by omega)
  have hb : b.toNat % 128 < 128 := Nat.mod_lt _ (by norm_num)
  rw [lebPiece_low, BitVec.toNat_ofNat, Nat.mod_eq_of_lt]
  calc 2 ^ (7 * i.val) * (b.toNat % 128) ≤ 2 ^ 21 * 128 := Nat.mul_le_mul hi hb.le
    _ < 2 ^ 64 := by norm_num

/-- One step of the loop on a continuation byte. -/
theorem readUleb128Loop_more {mem : Memory} {start limit : ℕ} (fuel : ℕ) {working : BitVec 64}
    (i : Fin 4) (hlim : start + i < limit) (hb : 128 ≤ (mem (start + i)).toNat)
    (hw : working.toNat < 2 ^ (7 * i.val)) :
    ∃ working' : BitVec 64, working'.toNat < 2 ^ (7 * (i.val + 1)) ∧
      working' = working + BitVec.ofNat 64 (2 ^ (7 * i.val) * ((mem (start + i)).toNat % 128)) ∧
      readUleb128Loop mem start limit (fuel + 1) (start + i) working =
        readUleb128Loop mem start limit fuel (start + (i + 1)) working' := by
  have hpiece := toNat_lebPiece_low i (mem (start + i))
  have hmod : (mem (start + i)).toNat % 128 < 128 := Nat.mod_lt _ (by norm_num)
  refine ⟨working ||| lebPiece (mem (start + i)) (7 * i), ?_, ?_, ?_⟩
  · rw [toNat_or_of_lt hw hpiece, hpiece, show 7 * (i.val + 1) = 7 * i + 7 by ring, pow_add]
    have hle := Nat.mul_le_mul_left (2 ^ (7 * i.val)) (Nat.le_of_lt_succ hmod)
    omega
  · rw [or_eq_add hw hpiece, lebPiece_low]
  · have hi := i.isLt
    rw [readUleb128Loop, if_neg (by omega), if_neg (by omega)]
    simp only [Nat.add_sub_cancel_left, if_pos hb, add_assoc]

/-- The step of the loop on the last byte. -/
theorem readUleb128Loop_stop {mem : Memory} {start limit fuel : ℕ} {working : BitVec 64}
    {i : ℕ} (hi : i ≤ 4) (hlim : start + i < limit) (hb : (mem (start + i)).toNat < 128)
    (hw : working.toNat < 2 ^ (7 * i)) :
    readUleb128Loop mem start limit (fuel + 1) (start + i) working =
      .ok (working + BitVec.ofInt 64 (2 ^ (7 * i) * readTop (i + 1) (mem (start + i))),
        start + i + 1) := by
  have hor : working ||| lebPiece (mem (start + i)) (7 * i) =
      working + BitVec.ofInt 64 (2 ^ (7 * i) * readTop (i + 1) (mem (start + i))) := by
    rcases Nat.lt_or_eq_of_le hi with hlt | rfl
    · have hlow := lebPiece_low ⟨i, hlt⟩ (mem (start + i))
      rw [or_eq_add hw (toNat_lebPiece_low ⟨i, hlt⟩ _), hlow, Nat.mod_eq_of_lt hb, readTop,
        if_neg (by omega), ← BitVec.ofInt_natCast]
      push_cast
      rfl
    · have hfifth := lebPiece_fifth (mem (start + 4))
      have hdvd : ∃ a, (lebPiece (mem (start + 4)) 28).toNat = 2 ^ 28 * a := by
        have h : ∀ b : Byte, (lebPiece b 28).toNat % 2 ^ 28 = 0 := by
          unfold lebPiece
          decide +kernel
        exact Nat.dvd_of_mod_eq_zero (h _)
      obtain ⟨a, ha⟩ := hdvd
      rw [or_eq_add (k := 28) hw ha, hfifth]
  rw [readUleb128Loop, if_neg (by omega), if_neg (by omega)]
  simp only [Nat.add_sub_cancel_left, if_neg (Nat.not_le.mpr hb), hor]

/-- The loop from byte `i` of a number on: what is left of the payload is added. -/
theorem readUleb128Loop_eq {mem : Memory} {start limit : ℕ} {last : Byte}
    (hstop : last.toNat < 128) (front : List Byte) (hmore : ∀ b ∈ front, 128 ≤ b.toNat)
    {i fuel : ℕ} {working : BitVec 64} (hi : i + front.length ≤ 4)
    (hfuel : front.length < fuel) (hlim : start + i + front.length < limit)
    (hmem : HoldsAt mem (start + i) (front ++ [last])) (hw : working.toNat < 2 ^ (7 * i)) :
    readUleb128Loop mem start limit fuel (start + i) working =
      .ok (working + BitVec.ofInt 64 (2 ^ (7 * i) *
        Leb.payload front (readTop (i + front.length + 1) last)), start + i + front.length + 1) := by
  induction front generalizing i fuel working with
  | nil =>
    obtain ⟨fuel, rfl⟩ := Nat.exists_eq_succ_of_ne_zero (by omega : fuel ≠ 0)
    obtain ⟨hlast, -⟩ := hmem
    simp only [List.length_nil, add_zero] at *
    rw [readUleb128Loop_stop hi hlim (by rwa [hlast]) hw, hlast, Leb.payload_nil]
  | cons b front ih =>
    rw [List.length_cons] at *
    obtain ⟨fuel, rfl⟩ := Nat.exists_eq_succ_of_ne_zero (by omega : fuel ≠ 0)
    obtain ⟨hb, hrest⟩ := hmem
    have hmoreb : 128 ≤ (mem (start + i)).toNat := by rw [hb]; exact hmore b (by simp)
    obtain ⟨working', hlt, heq, hstep⟩ := readUleb128Loop_more fuel
      ⟨i, by omega⟩ (by omega : start + i < limit) hmoreb hw
    simp only [hb] at hlt heq hstep
    have hsucc : i + 1 + front.length ≤ 4 := by omega
    have hfuel' : front.length < fuel := by omega
    have hih := ih (fun c hc => hmore c (List.mem_cons_of_mem b hc)) hsucc hfuel' (by omega)
      (by rwa [← add_assoc]) hlt
    rw [Nat.succ_eq_add_one, hstep, hih, heq, Leb.payload_cons]
    rw [show i + 1 + front.length + 1 = i + (front.length + 1) + 1 by omega,
      show start + (i + 1) + front.length + 1 = start + i + (front.length + 1) + 1 by omega]
    congr 2
    rw [BitVec.add_assoc, ← BitVec.ofInt_natCast, ← BitVec.ofInt_add]
    congr 2
    push_cast
    ring

/-- The value `read_uleb128` delivers for a number of up to five bytes. -/
def unsignedRead (l : Leb) : ℤ := Leb.payload l.front (readTop l.length l.last)

/-- **`read_uleb128` on a number of up to five bytes.** -/
theorem readUleb128_eq {mem : Memory} {cur limit : ℕ} {l : Leb} (hlen : l.length ≤ 5)
    (hlim : cur + l.length ≤ limit) (hmem : HoldsAt mem cur l.bytes) :
    readUleb128 mem cur limit = .ok (BitVec.ofInt 64 (unsignedRead l), cur + l.length) := by
  have hsize : 0 + l.front.length ≤ 4 := by unfold Leb.length at hlen; omega
  have hfuel : l.front.length < limit - cur + 1 := by unfold Leb.length at hlim; omega
  have hzero : (0#64).toNat < 2 ^ (7 * 0) := by simp
  have hloop := readUleb128Loop_eq l.stop l.front l.more hsize hfuel
    (by unfold Leb.length at hlim; omega : cur + 0 + l.front.length < limit) hmem hzero
  rw [BitVec.zero_add] at hloop
  simp only [add_zero, mul_zero, pow_zero, one_mul, zero_add] at hloop
  rw [readUleb128, hloop]
  simp only [ok_bind]
  rw [assert_ok (by unfold Leb.length at hlen; omega)]
  rfl

/-- Below `2 ^ 31` a fifth byte has nothing above its low three bits. -/
theorem unsignedRead_of_lt {l : Leb} (hval : l.unsigned < 2 ^ 31) :
    unsignedRead l = l.unsigned := by
  have htop : readTop l.length l.last = l.last.toNat := by
    have hlow := (Leb.payload_bounds l.front (le_refl (l.last.toNat : ℤ)) (lt_add_one _)).1
    rw [← Leb.unsigned_cast] at hlow
    unfold readTop
    split_ifs with h5 h8
    · rw [show l.front.length = 4 by unfold Leb.length at h5; omega] at hlow
      omega
    · rw [show l.front.length = 4 by unfold Leb.length at h5; omega] at hlow
      omega
    · rfl
  rw [unsignedRead, htop, Leb.unsigned_cast]

/-- **`read_uleb128` reads every number below `2 ^ 31` of up to five bytes.** -/
theorem readUleb128_unsigned {mem : Memory} {cur limit : ℕ} {l : Leb} (hlen : l.length ≤ 5)
    (hval : l.unsigned < 2 ^ 31) (hlim : cur + l.length ≤ limit)
    (hmem : HoldsAt mem cur l.bytes) :
    readUleb128 mem cur limit = .ok (BitVec.ofNat 64 l.unsigned, cur + l.length) := by
  rw [readUleb128_eq hlen hlim hmem, unsignedRead_of_lt hval, BitVec.ofInt_natCast]

/-- **`read_sleb128` reads every number in `[-2 ^ 31, 2 ^ 31)` of up to five bytes.** -/
theorem readSleb128_signed {mem : Memory} {cur limit : ℕ} {l : Leb} (hlen : l.length ≤ 5)
    (hlo : -2 ^ 31 ≤ l.signed) (hhi : l.signed < 2 ^ 31) (hlim : cur + l.length ≤ limit)
    (hmem : HoldsAt mem cur l.bytes) :
    readSleb128 mem cur limit = .ok (BitVec.ofInt 64 l.signed, cur + l.length) := by
  have htop : ∃ d : ℤ, readTop l.length l.last = l.top + 128 * d := by
    have hb := Leb.payload_bounds l.front (le_refl l.top) (lt_add_one _)
    rw [← Leb.signed] at hb
    have hstop := l.stop
    have hsign : (64 ≤ l.last.toNat ∧ l.top = l.last.toNat - 128) ∨
        (l.last.toNat < 64 ∧ l.top = l.last.toNat) := by
      unfold Leb.top Leb.negative
      split_ifs with h <;> omega
    unfold readTop
    by_cases h5 : l.length = 5
    · rw [show l.front.length = 4 by unfold Leb.length at h5; omega] at hb
      exact ⟨0, by split_ifs <;> omega⟩
    · rw [if_neg h5]
      obtain ⟨-, h⟩ | ⟨-, h⟩ := hsign
      · exact ⟨1, by omega⟩
      · exact ⟨0, by omega⟩
  obtain ⟨d, hd⟩ := htop
  have hpos := l.length_pos
  have hword : unsignedRead l =
      l.signed + 2 ^ (64 - (64 - 7 * l.length)) * d := by
    rw [unsignedRead, hd, Leb.payload_add, ← Leb.signed,
      show 64 - (64 - 7 * l.length) = 7 * l.length by omega, Leb.length, pow_mul, pow_succ]
    ring
  have hbounds := l.signed_bounds
  rw [readSleb128, readUleb128_eq hlen hlim hmem]
  simp only [ok_bind, Nat.add_sub_cancel_left]
  rw [hword, sshiftRight_shiftLeft (by omega)]
  · rfl
  · rw [show 63 - (64 - 7 * l.length) = 7 * l.length - 1 by omega]; exact hbounds.1
  · rw [show 63 - (64 - 7 * l.length) = 7 * l.length - 1 by omega]; exact hbounds.2

/-! ### Fixed-width operands -/

/-- `v` as `n` bytes in the byte order that `host_is_big_endian()` and
`use_host_byte_order` select. -/
def fixedBytes (hostBig useHostByteOrder : Bool) (n v : ℕ) : List Byte :=
  if hostBig = useHostByteOrder then beBytes n v else leBytes n v

@[simp] theorem fixedBytes_length (hostBig useHostByteOrder : Bool) (n v : ℕ) :
    (fixedBytes hostBig useHostByteOrder n v).length = n := by
  unfold fixedBytes
  split_ifs <;> simp

theorem readLe_bytes {mem : Memory} {cur limit n v : ℕ} (hn : n ≤ 8) (hv : v < 256 ^ n)
    (hlim : cur + n ≤ limit) (hmem : HoldsAt mem cur (leBytes n v)) :
    readLe n mem cur limit = .ok (BitVec.ofNat 64 v, cur + n) := by
  rw [readLe, assert_ok hlim, wordLe_holdsAt hn hv hmem]
  rfl

theorem readBe_bytes {mem : Memory} {cur limit n v : ℕ} (hn : n ≤ 8) (hv : v < 256 ^ n)
    (hlim : cur + n ≤ limit) (hmem : HoldsAt mem cur (beBytes n v)) :
    readBe n mem cur limit = .ok (BitVec.ofNat 64 v, cur + n) := by
  rw [readBe, assert_ok hlim, wordBe_holdsAt hn hv hmem]
  rfl

/-- The byte order `read_addr` selects is that of `fixedBytes`. -/
theorem readAddr_eq {hostBig useHost : Bool} {mem : Memory} {cur limit addrlen : ℕ}
    (haddr : addrlen = 4 ∨ addrlen = 8) :
    readAddr hostBig addrlen mem cur limit useHost =
      if hostBig = useHost then readBe addrlen mem cur limit
      else readLe addrlen mem cur limit := by
  obtain rfl | rfl := haddr <;> cases hostBig <;> cases useHost <;>
    simp [readAddr, read4byteBe, read8byteBe, read4byteLe, read8byteLe]

/-- **`read_addr` reads an address in either byte order.** -/
theorem readAddr_bytes {hostBig useHost : Bool} {mem : Memory} {cur limit addrlen v : ℕ}
    (haddr : addrlen = 4 ∨ addrlen = 8) (hv : v < 256 ^ addrlen) (hlim : cur + addrlen ≤ limit)
    (hmem : HoldsAt mem cur (fixedBytes hostBig useHost addrlen v)) :
    readAddr hostBig addrlen mem cur limit useHost = .ok (BitVec.ofNat 64 v, cur + addrlen) := by
  have hlen : addrlen ≤ 8 := by omega
  rw [readAddr_eq haddr]
  unfold fixedBytes at hmem
  split_ifs at hmem ⊢
  · exact readBe_bytes hlen hv hlim hmem
  · exact readLe_bytes hlen hv hlim hmem

end Frame
end Dwarfpp
