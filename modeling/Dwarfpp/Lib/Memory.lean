/-
# Byte memory and fixed-width words

A memory is a total function from addresses to bytes.  `HoldsAt mem a bs` says
that the bytes `bs` lie at address `a`; `slice` reads a block back.  A word of
`n ≤ 8` bytes is assembled by shifting each byte to its place and joining the
results with bitwise or, lowest byte first (`wordLe`) or highest byte first
(`wordBe`); `leBytes` and `beBytes` are the two encoders, and `wordLe_holdsAt`
and `wordBe_holdsAt` are the round trips.
-/

import Dwarfpp.Lib.Word

namespace Dwarfpp
namespace Lib

abbrev Byte := BitVec 8

abbrev Memory := ℕ → Byte

/-- The bytes `bs` lie in memory from address `a` on. -/
def HoldsAt (mem : Memory) : ℕ → List Byte → Prop
  | _, [] => True
  | a, b :: bs => mem a = b ∧ HoldsAt mem (a + 1) bs

/-- The block of `n` bytes at address `a`. -/
def slice (mem : Memory) (a : ℕ) : ℕ → List Byte
  | 0 => []
  | n + 1 => mem a :: slice mem (a + 1) n

/-- A memory that holds `bs` from address `a` on and zero elsewhere. -/
def memoryOf (a : ℕ) (bs : List Byte) : Memory := fun i =>
  if a ≤ i then bs.getD (i - a) 0 else 0

@[simp] theorem holdsAt_nil (mem : Memory) (a : ℕ) : HoldsAt mem a [] := trivial

@[simp] theorem holdsAt_cons (mem : Memory) (a : ℕ) (b : Byte) (bs : List Byte) :
    HoldsAt mem a (b :: bs) ↔ mem a = b ∧ HoldsAt mem (a + 1) bs := Iff.rfl

@[simp] theorem holdsAt_append (mem : Memory) (a : ℕ) (bs cs : List Byte) :
    HoldsAt mem a (bs ++ cs) ↔ HoldsAt mem a bs ∧ HoldsAt mem (a + bs.length) cs := by
  induction bs generalizing a with
  | nil => simp
  | cons b bs ih =>
    simp only [List.cons_append, holdsAt_cons, ih, List.length_cons, and_assoc]
    rw [show a + 1 + bs.length = a + (bs.length + 1) by omega]

theorem slice_of_holdsAt {mem : Memory} {a : ℕ} {bs : List Byte} (h : HoldsAt mem a bs) :
    slice mem a bs.length = bs := by
  induction bs generalizing a with
  | nil => rfl
  | cons b bs ih =>
    rw [List.length_cons, slice, h.1, ih h.2]

@[simp] theorem slice_length (mem : Memory) (a n : ℕ) : (slice mem a n).length = n := by
  induction n generalizing a with
  | zero => rfl
  | succ n ih => simp [slice, ih]

/-- Bytes that agree pointwise with a memory lie in it. -/
theorem holdsAt_of_getD {mem : Memory} {a : ℕ} {bs : List Byte}
    (h : ∀ i, i < bs.length → mem (a + i) = bs.getD i 0) : HoldsAt mem a bs := by
  induction bs generalizing a with
  | nil => trivial
  | cons b bs ih =>
    refine ⟨by simpa using h 0 (by simp), ih fun i hi => ?_⟩
    have hstep := h (i + 1) (by simpa using hi)
    rw [show a + (i + 1) = a + 1 + i by omega] at hstep
    simpa using hstep

theorem holdsAt_memoryOf (a : ℕ) (bs : List Byte) : HoldsAt (memoryOf a bs) a bs :=
  holdsAt_of_getD fun i _ => by simp [memoryOf]

/-! ### Fixed-width words -/

/-- The bytes `i, i + 1, …` of the `n`-byte little-endian word at `p`, each
shifted by eight times its index. -/
def wordLe (mem : Memory) (p : ℕ) : ℕ → ℕ → BitVec 64
  | _, 0 => 0
  | i, n + 1 => (mem (p + i)).setWidth 64 <<< (8 * i) ||| wordLe mem p (i + 1) n

/-- The `n`-byte big-endian word at `p`: the first byte is the highest. -/
def wordBe (mem : Memory) : ℕ → ℕ → BitVec 64
  | _, 0 => 0
  | p, n + 1 => (mem p).setWidth 64 <<< (8 * n) ||| wordBe mem (p + 1) n

/-- `v` as `n` bytes, lowest first. -/
def leBytes : ℕ → ℕ → List Byte
  | 0, _ => []
  | n + 1, v => BitVec.ofNat 8 v :: leBytes n (v / 256)

/-- `v` as `n` bytes, highest first. -/
def beBytes : ℕ → ℕ → List Byte
  | 0, _ => []
  | n + 1, v => BitVec.ofNat 8 (v / 256 ^ n) :: beBytes n (v % 256 ^ n)

@[simp] theorem leBytes_length (n v : ℕ) : (leBytes n v).length = n := by
  induction n generalizing v with
  | zero => rfl
  | succ n ih => simp [leBytes, ih]

@[simp] theorem beBytes_length (n v : ℕ) : (beBytes n v).length = n := by
  induction n generalizing v with
  | zero => rfl
  | succ n ih => simp [beBytes, ih]

theorem toNat_byte_shiftLeft (b : Byte) {k : ℕ} (hk : k ≤ 56) :
    (b.setWidth 64 <<< k).toNat = b.toNat * 2 ^ k := by
  have hb : b.toNat < 2 ^ 8 := b.isLt
  have hle : b.toNat * 2 ^ k < 2 ^ 64 := by
    calc b.toNat * 2 ^ k < 2 ^ 8 * 2 ^ k := Nat.mul_lt_mul_of_pos_right hb (by positivity)
      _ = 2 ^ (8 + k) := by rw [pow_add]
      _ ≤ 2 ^ 64 := Nat.pow_le_pow_right (by norm_num) (by omega)
  rw [BitVec.toNat_shiftLeft, BitVec.toNat_setWidth, Nat.mod_eq_of_lt (a := b.toNat) (by omega),
    Nat.shiftLeft_eq, Nat.mod_eq_of_lt hle]

theorem toNat_wordLe {mem : Memory} {p i n v : ℕ} (hn : i + n ≤ 8) (hv : v < 256 ^ n)
    (h : HoldsAt mem (p + i) (leBytes n v)) : (wordLe mem p i n).toNat = v * 2 ^ (8 * i) := by
  induction n generalizing i v with
  | zero => simp at hv; simp [wordLe, hv]
  | succ n ih =>
    obtain ⟨hb, hrest⟩ := h
    have hhigh := ih (i := i + 1) (v := v / 256) (by omega)
      (by rw [Nat.div_lt_iff_lt_mul (by norm_num)]; rwa [pow_succ] at hv)
      (by simpa [add_assoc] using hrest)
    have hlow : ((mem (p + i)).setWidth 64 <<< (8 * i)).toNat = v % 256 * 2 ^ (8 * i) := by
      rw [toNat_byte_shiftLeft _ (by omega), hb, BitVec.toNat_ofNat]
    have hlt : ((mem (p + i)).setWidth 64 <<< (8 * i)).toNat < 2 ^ (8 * (i + 1)) := by
      rw [hlow, show 8 * (i + 1) = 8 + 8 * i by ring, pow_add]
      exact Nat.mul_lt_mul_of_pos_right (by omega) (by positivity)
    rw [wordLe, toNat_or_of_lt hlt (a := v / 256) (by rw [hhigh]; ring), hlow, hhigh,
      show 8 * (i + 1) = 8 + 8 * i by ring, pow_add]
    have := Nat.div_add_mod v 256
    calc v % 256 * 2 ^ (8 * i) + v / 256 * (2 ^ 8 * 2 ^ (8 * i))
        = (256 * (v / 256) + v % 256) * 2 ^ (8 * i) := by ring
      _ = v * 2 ^ (8 * i) := by rw [this]

theorem toNat_wordBe {mem : Memory} {p n v : ℕ} (hn : n ≤ 8) (hv : v < 256 ^ n)
    (h : HoldsAt mem p (beBytes n v)) : (wordBe mem p n).toNat = v := by
  induction n generalizing p v with
  | zero => simp at hv; simp [wordBe, hv]
  | succ n ih =>
    obtain ⟨hb, hrest⟩ := h
    have hpos : 0 < 256 ^ n := by positivity
    have hlow := ih (v := v % 256 ^ n) (by omega) (Nat.mod_lt _ hpos) hrest
    have htop : v / 256 ^ n < 256 := by
      rw [Nat.div_lt_iff_lt_mul hpos, mul_comm]; rwa [pow_succ] at hv
    have hhigh : ((mem p).setWidth 64 <<< (8 * n)).toNat = 2 ^ (8 * n) * (v / 256 ^ n) := by
      rw [toNat_byte_shiftLeft _ (by omega), hb, BitVec.toNat_ofNat, Nat.mod_eq_of_lt (by omega),
        mul_comm]
    have h256 : 256 ^ n = 2 ^ (8 * n) := by rw [pow_mul]; norm_num
    have hlt : (wordBe mem (p + 1) n).toNat < 2 ^ (8 * n) := by
      rw [hlow, ← h256]; exact Nat.mod_lt _ hpos
    rw [wordBe, BitVec.or_comm, toNat_or_of_lt hlt hhigh, hlow, hhigh, ← h256]
    have := Nat.div_add_mod v (256 ^ n)
    omega

/-- **Little-endian round trip.** -/
theorem wordLe_holdsAt {mem : Memory} {p n v : ℕ} (hn : n ≤ 8) (hv : v < 256 ^ n)
    (h : HoldsAt mem p (leBytes n v)) : wordLe mem p 0 n = BitVec.ofNat 64 v := by
  have hword := toNat_wordLe (i := 0) (by omega) hv h
  have hlt := (wordLe mem p 0 n).isLt
  apply BitVec.eq_of_toNat_eq
  rw [BitVec.toNat_ofNat, hword] at *
  omega

/-- **Big-endian round trip.** -/
theorem wordBe_holdsAt {mem : Memory} {p n v : ℕ} (hn : n ≤ 8) (hv : v < 256 ^ n)
    (h : HoldsAt mem p (beBytes n v)) : wordBe mem p n = BitVec.ofNat 64 v := by
  have hword := toNat_wordBe hn hv h
  have hlt := (wordBe mem p n).isLt
  apply BitVec.eq_of_toNat_eq
  rw [BitVec.toNat_ofNat, hword] at *
  omega

/-- The hypotheses of the round trips are satisfiable: four bytes in each order. -/
example : wordLe (memoryOf 3 (leBytes 4 0x01020304)) 3 0 4 = 0x01020304#64 ∧
    wordBe (memoryOf 3 (beBytes 4 0x01020304)) 3 4 = 0x01020304#64 := by decide

end Lib
end Dwarfpp
