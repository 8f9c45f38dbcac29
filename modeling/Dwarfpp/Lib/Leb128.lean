/-
# LEB128 numbers

A LEB128 number is a run of bytes whose high bit is set followed by one byte
whose high bit is clear, seven payload bits in each byte, lowest first.  `Leb`
carries the two conditions as fields, so a value of it is a well-formed number.
`unsigned` and `signed` are its two readings: they differ by the weight of the
whole run when bit 6 of the last byte is set (`signed_eq`).  `ofNat` and `ofInt`
are the minimal encoders, with their round trips (`unsigned_ofNat`,
`signed_ofInt`) and lengths (`length_ofNat_le`, `length_ofInt_le`).
-/

import Dwarfpp.Lib.Memory

namespace Dwarfpp
namespace Lib

/-- A well-formed LEB128 number. -/
structure Leb where
  front : List Byte
  last : Byte
  more : ∀ b ∈ front, 128 ≤ b.toNat
  stop : last.toNat < 128

namespace Leb

def bytes (l : Leb) : List Byte := l.front ++ [l.last]

def length (l : Leb) : ℕ := l.front.length + 1

@[simp] theorem bytes_length (l : Leb) : l.bytes.length = l.length := by
  simp [bytes, length]

theorem length_pos (l : Leb) : 0 < l.length := Nat.succ_pos _

/-- The payload of continuation bytes `front` followed by the value `top`. -/
def payload (front : List Byte) (top : ℤ) : ℤ :=
  front.foldr (fun b acc => (b.toNat % 128 : ℕ) + 128 * acc) top

@[simp] theorem payload_nil (top : ℤ) : payload [] top = top := rfl

@[simp] theorem payload_cons (b : Byte) (front : List Byte) (top : ℤ) :
    payload (b :: front) top = (b.toNat % 128 : ℕ) + 128 * payload front top := rfl

/-- The payload of a run is affine in its top. -/
theorem payload_add (front : List Byte) (top d : ℤ) :
    payload front (top + d) = payload front top + 128 ^ front.length * d := by
  induction front with
  | nil => simp
  | cons b front ih =>
    rw [payload_cons, ih, payload_cons, List.length_cons, pow_succ]
    ring

theorem payload_bounds (front : List Byte) {top lo hi : ℤ} (hlo : lo ≤ top) (hhi : top < hi) :
    128 ^ front.length * lo ≤ payload front top ∧ payload front top < 128 ^ front.length * hi := by
  induction front with
  | nil => simpa using ⟨hlo, hhi⟩
  | cons b front ih =>
    obtain ⟨h1, h2⟩ := ih
    have hb : ((b.toNat % 128 : ℕ) : ℤ) < 128 := by omega
    rw [payload_cons, List.length_cons, pow_succ, mul_right_comm _ 128 lo, mul_right_comm _ 128 hi]
    constructor <;> omega

/-- The unsigned reading. -/
def unsigned (l : Leb) : ℕ := (payload l.front l.last.toNat).toNat

/-- Bit 6 of the last byte: the sign of the signed reading. -/
abbrev negative (l : Leb) : Prop := 64 ≤ l.last.toNat

/-- The last byte as a signed seven-bit number. -/
def top (l : Leb) : ℤ := if l.negative then (l.last.toNat : ℤ) - 128 else l.last.toNat

/-- The signed reading: two's complement over the payload bits. -/
def signed (l : Leb) : ℤ := payload l.front l.top

theorem unsigned_cast (l : Leb) : (l.unsigned : ℤ) = payload l.front l.last.toNat := by
  have h := (payload_bounds l.front (Int.natCast_nonneg l.last.toNat)
    (show (l.last.toNat : ℤ) < 128 by exact_mod_cast l.stop)).1
  rw [mul_zero] at h
  exact Int.toNat_of_nonneg h

theorem unsigned_lt (l : Leb) : l.unsigned < 2 ^ (7 * l.length) := by
  have h := (payload_bounds l.front (Int.natCast_nonneg l.last.toNat)
    (show (l.last.toNat : ℤ) < 128 by exact_mod_cast l.stop)).2
  rw [← unsigned_cast, ← pow_succ] at h
  rw [length, pow_mul]
  exact_mod_cast h

/-- **The two readings differ by the weight of the run**, when its sign bit is set. -/
theorem signed_eq (l : Leb) :
    l.signed = l.unsigned - (if l.negative then 2 ^ (7 * l.length) else 0) := by
  have hpow : (2 : ℤ) ^ (7 * l.length) = 128 ^ l.front.length * 128 := by
    rw [length, pow_mul, pow_succ]; norm_num
  rw [signed, unsigned_cast, top]
  split_ifs
  · rw [sub_eq_add_neg, payload_add, hpow]
    ring
  · rw [sub_zero]

theorem signed_bounds (l : Leb) :
    -2 ^ (7 * l.length - 1) ≤ l.signed ∧ l.signed < 2 ^ (7 * l.length - 1) := by
  have hpow : (2 : ℤ) ^ (7 * l.length - 1) = 128 ^ l.front.length * 64 := by
    rw [length, show 7 * (l.front.length + 1) - 1 = 7 * l.front.length + 6 by omega, pow_add,
      pow_mul]
    norm_num
  have hstop := l.stop
  have htop : -64 ≤ l.top ∧ l.top < 64 := by
    unfold top
    split_ifs <;> omega
  have h := payload_bounds l.front htop.1 htop.2
  rw [hpow, signed]
  constructor
  · rw [← mul_neg]; exact h.1
  · exact h.2

/-! ### The minimal encoders -/

/-- A one-byte number has no byte with a bit for more. -/
theorem nil_more : ∀ b ∈ ([] : List Byte), 128 ≤ b.toNat := by simp

/-- A one-byte number. -/
def single (d : ℕ) : Leb where
  front := []
  last := BitVec.ofNat 8 (d % 128)
  more := by simp
  stop := by rw [BitVec.toNat_ofNat]; omega

/-- The number with payload `d` below `l`. -/
def cons (d : ℕ) (l : Leb) : Leb where
  front := BitVec.ofNat 8 (d % 128 + 128) :: l.front
  last := l.last
  more := by
    simp only [List.mem_cons, forall_eq_or_imp, BitVec.toNat_ofNat]
    exact ⟨by omega, l.more⟩
  stop := l.stop

theorem single_last (d : ℕ) : (single d).last.toNat = d % 128 := by
  simp only [single, BitVec.toNat_ofNat]
  omega

theorem unsigned_single (d : ℕ) : (single d).unsigned = d % 128 := by
  rw [unsigned, single_last, single, payload_nil, Int.toNat_natCast]

theorem signed_single {d : ℤ} (h1 : -64 ≤ d) (h2 : d < 64) :
    (single (d % 128).toNat).signed = d := by
  simp only [signed, top, negative, single_last]
  simp only [single, payload_nil]
  split_ifs <;> omega

theorem cons_payload (d : ℕ) (l : Leb) (top : ℤ) :
    payload (cons d l).front top = (d % 128 : ℕ) + 128 * payload l.front top := by
  rw [cons, payload_cons, BitVec.toNat_ofNat]
  omega

theorem unsigned_cons (d : ℕ) (l : Leb) : (cons d l).unsigned = d % 128 + 128 * l.unsigned := by
  have h := unsigned_cast (cons d l)
  rw [cons_payload] at h
  have hlast : (cons d l).last = l.last := rfl
  rw [hlast, ← unsigned_cast] at h
  exact_mod_cast h

theorem signed_cons (d : ℕ) (l : Leb) :
    (cons d l).signed = (d % 128 : ℕ) + 128 * l.signed :=
  cons_payload d l _

@[simp] theorem length_single (d : ℕ) : (single d).length = 1 := rfl

@[simp] theorem length_cons (d : ℕ) (l : Leb) : (cons d l).length = l.length + 1 := rfl

/-- The minimal unsigned encoder, `fuel` continuation bytes at most. -/
def ofNatFuel : ℕ → ℕ → Leb
  | 0, n => single n
  | fuel + 1, n => if n < 128 then single n else cons n (ofNatFuel fuel (n / 128))

/-- The minimal unsigned encoding of `n`. -/
def ofNat (n : ℕ) : Leb := ofNatFuel n n

/-- The minimal signed encoder, `fuel` continuation bytes at most. -/
def ofIntFuel : ℕ → ℤ → Leb
  | 0, z => single (z % 128).toNat
  | fuel + 1, z =>
    if -64 ≤ z ∧ z < 64 then single (z % 128).toNat
    else cons (z % 128).toNat (ofIntFuel fuel (z / 128))

/-- The minimal signed encoding of `z`. -/
def ofInt (z : ℤ) : Leb := ofIntFuel z.natAbs z

theorem unsigned_ofNatFuel {fuel n : ℕ} (h : n < 128 ^ (fuel + 1)) :
    (ofNatFuel fuel n).unsigned = n := by
  induction fuel generalizing n with
  | zero =>
    rw [ofNatFuel, unsigned_single]
    exact Nat.mod_eq_of_lt (by simpa using h)
  | succ fuel ih =>
    rw [ofNatFuel]
    split_ifs with hn
    · rw [unsigned_single]
      exact Nat.mod_eq_of_lt hn
    · have hdiv : n / 128 < 128 ^ (fuel + 1) := by
        rw [Nat.div_lt_iff_lt_mul (by norm_num)]
        rwa [pow_succ] at h
      rw [unsigned_cons, ih hdiv]
      omega

/-- **Unsigned round trip.** -/
theorem unsigned_ofNat (n : ℕ) : (ofNat n).unsigned = n :=
  unsigned_ofNatFuel ((Nat.lt_pow_self (by norm_num)).trans
    (Nat.pow_lt_pow_right (by norm_num) (Nat.lt_succ_self n)))

theorem signed_ofIntFuel {fuel : ℕ} {z : ℤ} (h1 : -(64 * 128 ^ fuel) ≤ z)
    (h2 : z < 64 * 128 ^ fuel) : (ofIntFuel fuel z).signed = z := by
  induction fuel generalizing z with
  | zero =>
    rw [pow_zero] at h1 h2
    exact signed_single h1 h2
  | succ fuel ih =>
    rw [ofIntFuel]
    split_ifs with hz
    · exact signed_single hz.1 hz.2
    · rw [pow_succ] at h1 h2
      rw [signed_cons, ih (by omega) (by omega)]
      omega

/-- **Signed round trip.** -/
theorem signed_ofInt (z : ℤ) : (ofInt z).signed = z := by
  have hpow : (z.natAbs : ℤ) < 128 ^ z.natAbs := by
    exact_mod_cast Nat.lt_pow_self (by norm_num)
  exact signed_ofIntFuel (by omega) (by omega)

theorem length_ofNatFuel_le {fuel n k : ℕ} (h : n < 128 ^ (k + 1)) :
    (ofNatFuel fuel n).length ≤ k + 1 := by
  induction fuel generalizing n k with
  | zero => simp [ofNatFuel]
  | succ fuel ih =>
    rw [ofNatFuel]
    split_ifs with hn
    · simp
    · cases k with
      | zero => simp at h; omega
      | succ k =>
        rw [length_cons]
        have := ih (n := n / 128) (k := k) (by
          rw [Nat.div_lt_iff_lt_mul (by norm_num)]
          rwa [pow_succ] at h)
        omega

/-- A number below `128 ^ (k + 1)` takes at most `k + 1` bytes. -/
theorem length_ofNat_le {n k : ℕ} (h : n < 128 ^ (k + 1)) : (ofNat n).length ≤ k + 1 :=
  length_ofNatFuel_le h

theorem length_ofIntFuel_le {fuel k : ℕ} {z : ℤ} (h1 : -(64 * 128 ^ k) ≤ z)
    (h2 : z < 64 * 128 ^ k) : (ofIntFuel fuel z).length ≤ k + 1 := by
  induction fuel generalizing z k with
  | zero => simp [ofIntFuel]
  | succ fuel ih =>
    rw [ofIntFuel]
    split_ifs with hz
    · simp
    · cases k with
      | zero => simp at h1 h2; omega
      | succ k =>
        rw [pow_succ] at h1 h2
        rw [length_cons]
        have := ih (z := z / 128) (k := k) (by omega) (by omega)
        omega

/-- An integer in `[-64 * 128 ^ k, 64 * 128 ^ k)` takes at most `k + 1` bytes. -/
theorem length_ofInt_le {z : ℤ} {k : ℕ} (h1 : -(64 * 128 ^ k) ≤ z) (h2 : z < 64 * 128 ^ k) :
    (ofInt z).length ≤ k + 1 :=
  length_ofIntFuel_le h1 h2

/-- A minimal signed encoding is negative exactly when its value is. -/
theorem negative_ofInt (z : ℤ) : (ofInt z).negative ↔ z < 0 := by
  have heq := signed_eq (ofInt z)
  have hlt := unsigned_lt (ofInt z)
  rw [signed_ofInt] at heq
  have hcast : ((ofInt z).unsigned : ℤ) < 2 ^ (7 * (ofInt z).length) := by exact_mod_cast hlt
  split_ifs at heq with hneg
  · exact ⟨fun _ => by omega, fun _ => hneg⟩
  · exact ⟨fun h => absurd h hneg, fun h => by omega⟩

/-- The hypotheses of the length lemmas are satisfiable: `-129` takes two bytes. -/
example : (ofInt (-129)).bytes = [0xff#8, 0x7e#8] ∧ (ofNat 624485).bytes = [0xe5, 0x8e, 0x26] := by
  decide

end Leb
end Lib
end Dwarfpp
