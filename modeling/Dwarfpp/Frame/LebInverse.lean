/-
# The LEB128 readers against the encoding

`read_uleb128` and `read_sleb128` of `src/frame.cpp` shift every payload as a 32-bit
`int`.  So they invert the encoding only up to five bytes and, in five, for values of
32 bits, signed (`leb128_read_iff`).  They never read behind the last byte
(`readUleb128LoopLog_log`).
-/

import Dwarfpp.Frame.ReadLog

namespace Dwarfpp
namespace Frame

open Lib

variable {mem : Memory} {cur limit : ℕ} {l : Leb}

/-- `read_uleb128` returns the number and leaves the cursor just after it, and reads no byte behind
it. -/
def ReadsUleb128 (mem : Memory) (cur limit : ℕ) (l : Leb) : Prop :=
  (readUleb128Log mem cur limit).result = .ok (BitVec.ofNat 64 l.unsigned, cur + l.length) ∧
    ∀ a ∈ (readUleb128Log mem cur limit).log, a < cur + l.length

/-- The same of `read_sleb128`. -/
def ReadsSleb128 (mem : Memory) (cur limit : ℕ) (l : Leb) : Prop :=
  (readSleb128Log mem cur limit).result = .ok (BitVec.ofInt 64 l.signed, cur + l.length) ∧
    ∀ a ∈ (readSleb128Log mem cur limit).log, a < cur + l.length

/-! ### What is read -/

/-- **The loop stops at the last byte of a number.** -/
theorem readUleb128LoopLog_log {start fuel pos : ℕ} {working : BitVec 64} {last : Byte}
    (hstop : last.toNat < 128) (front : List Byte) (hmem : HoldsAt mem pos (front ++ [last])) :
    ∀ a ∈ (readUleb128LoopLog mem start limit fuel pos working).log,
      a < pos + front.length + 1 := by
  induction fuel generalizing pos working front with
  | zero => exact fun a ha => absurd ha List.not_mem_nil
  | succ fuel ih =>
    intro a ha
    rw [readUleb128LoopLog] at ha
    by_cases hlim : limit ≤ pos
    · rw [if_pos hlim] at ha
      exact absurd ha List.not_mem_nil
    · rw [if_neg hlim] at ha
      rw [readByte, Logged.log_bind_ok (Logged.result_event _ _), Logged.log_event,
        List.singleton_append, List.mem_cons] at ha
      rcases ha with rfl | ha
      · omega
      split_ifs at ha with hwidth
      · exact absurd ha List.not_mem_nil
      rw [Logged.log_bind_ok (Logged.result_event _ _), Logged.log_event, List.singleton_append,
        List.mem_cons] at ha
      rcases ha with rfl | ha
      · omega
      split_ifs at ha with hmore
      · cases front with
        | nil =>
          rw [hmem.1] at hmore
          omega
        | cons b front =>
          have hlt := ih front hmem.2 a ha
          rw [List.length_cons]
          omega
      · exact absurd ha List.not_mem_nil

theorem readUleb128Log_log (hmem : HoldsAt mem cur l.bytes) :
    ∀ a ∈ (readUleb128Log mem cur limit).log, a < cur + l.length := by
  have hloop : ∀ a ∈ (readUleb128LoopLog mem cur limit (limit - cur + 1) cur 0#64).log,
      a < cur + l.length := readUleb128LoopLog_log l.stop l.front hmem
  intro a ha
  cases hres : (readUleb128LoopLog mem cur limit (limit - cur + 1) cur 0#64).result with
  | error e =>
    rw [readUleb128Log, Logged.log_bind_error hres] at ha
    exact hloop a ha
  | ok r =>
    rw [readUleb128Log, Logged.log_bind_ok hres, List.mem_append] at ha
    refine ha.elim (hloop a) fun ha => ?_
    cases hcheck : (assertLog (7 * (r.2 - cur) < 64)).result with
    | error e =>
      rw [Logged.log_bind_error hcheck] at ha
      exact absurd ha List.not_mem_nil
    | ok u =>
      rw [Logged.log_bind_ok hcheck] at ha
      exact absurd ha List.not_mem_nil

theorem readSleb128Log_log :
    (readSleb128Log mem cur limit).log = (readUleb128Log mem cur limit).log := by
  cases hres : (readUleb128Log mem cur limit).result with
  | error e => rw [readSleb128Log, Logged.log_bind_error hres]
  | ok r => rw [readSleb128Log, Logged.log_bind_ok hres, Logged.log_pure, List.append_nil]

/-! ### Six bytes and more -/

/-- **A sixth byte is shifted by more than the width.** -/
theorem readUleb128Loop_error {start fuel : ℕ} (front : List Byte)
    (hmore : ∀ b ∈ front, 128 ≤ b.toNat) {i : ℕ} {working : BitVec 64}
    (hlong : 5 ≤ i + front.length) (hmem : HoldsAt mem (start + i) front) :
    ∃ e, readUleb128Loop mem start limit fuel (start + i) working = .error e := by
  induction front generalizing i fuel working with
  | nil =>
    cases fuel with
    | zero => exact ⟨_, rfl⟩
    | succ fuel =>
      rw [List.length_nil] at hlong
      rw [readUleb128Loop, if_pos (show 32 ≤ 7 * (start + i - start) by omega)]
      split_ifs
      · exact ⟨_, rfl⟩
      · exact ⟨_, rfl⟩
  | cons b front ih =>
    cases fuel with
    | zero => exact ⟨_, rfl⟩
    | succ fuel =>
      obtain ⟨hb, hrest⟩ := hmem
      have hnext : 128 ≤ (mem (start + i)).toNat := hb ▸ hmore b List.mem_cons_self
      rw [readUleb128Loop]
      split_ifs
      · exact ⟨_, rfl⟩
      · exact ⟨_, rfl⟩
      · rw [List.length_cons] at hlong
        exact ih (i := i + 1) (fun c hc => hmore c (List.mem_cons_of_mem b hc)) (by omega) hrest

theorem readUleb128_error (limit : ℕ) (hlong : 5 < l.length) (hmem : HoldsAt mem cur l.bytes) :
    ∃ e, readUleb128 mem cur limit = .error e := by
  have hfront : HoldsAt mem (cur + 0) l.front := ((holdsAt_append mem cur _ _).1 hmem).1
  have hlength : 5 ≤ 0 + l.front.length := by
    unfold Leb.length at hlong
    omega
  have hloop : ∃ e, readUleb128Loop mem cur limit (limit - cur + 1) (cur + 0) 0#64 = .error e :=
    readUleb128Loop_error l.front l.more hlength hfront
  obtain ⟨e, he⟩ := hloop
  rw [add_zero] at he
  exact ⟨e, by rw [readUleb128, he]; rfl⟩

/-! ### Five bytes -/

theorem ofInt_inj {m n : ℤ} (hm : -2 ^ 63 ≤ m ∧ m < 2 ^ 63) (hn : -2 ^ 63 ≤ n ∧ n < 2 ^ 63)
    (h : BitVec.ofInt 64 m = BitVec.ofInt 64 n) : m = n := by
  have hint := congrArg BitVec.toInt h
  rwa [BitVec.toInt_ofInt, BitVec.toInt_ofInt, Int.bmod_eq_of_le (by omega) (by omega),
    Int.bmod_eq_of_le (by omega) (by omega)] at hint

/-- Five bytes are read as a number of 32 bits, signed. -/
theorem unsignedRead_of_five (h5 : l.length = 5) :
    -2 ^ 31 ≤ unsignedRead l ∧ unsignedRead l < 2 ^ 31 := by
  have htop : -8 ≤ readTop l.length l.last ∧ readTop l.length l.last < 8 := by
    rw [readTop, if_pos h5]
    split_ifs <;> omega
  have hbounds := Leb.payload_bounds l.front htop.1 htop.2
  rw [show l.front.length = 4 by unfold Leb.length at h5; omega] at hbounds
  exact ⟨by unfold unsignedRead; omega, by unfold unsignedRead; omega⟩

theorem readSleb128_of_five (h5 : l.length = 5) (hlim : cur + l.length ≤ limit)
    (hmem : HoldsAt mem cur l.bytes) :
    readSleb128 mem cur limit = .ok (BitVec.ofInt 64 (unsignedRead l), cur + l.length) := by
  obtain ⟨hlo, hhi⟩ := unsignedRead_of_five h5
  have hshift := sshiftRight_shiftLeft (k := 29) (z := unsignedRead l) (c := 0) (by omega)
    (by omega) (by omega)
  rw [mul_zero, add_zero] at hshift
  rw [readSleb128, readUleb128_eq h5.le hlim hmem]
  simp only [ok_bind, Nat.add_sub_cancel_left, h5]
  rw [hshift]
  rfl

/-! ### The claims of the encoding -/

/-- **`read_uleb128` inverts the encoding** just for numbers of up to five bytes below `2 ^ 31`. -/
theorem readsUleb128_iff (hlim : cur + l.length ≤ limit) (hmem : HoldsAt mem cur l.bytes) :
    ReadsUleb128 mem cur limit l ↔ l.length ≤ 5 ∧ l.unsigned < 2 ^ 31 := by
  rw [ReadsUleb128, readUleb128Log_result]
  constructor
  · rintro ⟨hread, -⟩
    have hlen : l.length ≤ 5 := by
      by_contra hlong
      obtain ⟨e, he⟩ := readUleb128_error limit (not_le.1 hlong) hmem
      rw [he] at hread
      exact nomatch hread
    refine ⟨hlen, ?_⟩
    rcases Nat.lt_or_eq_of_le hlen with hlt | h5
    · have hpow : 2 ^ (7 * l.length) ≤ 2 ^ 28 := Nat.pow_le_pow_right (by norm_num) (by omega)
      have hunsigned := l.unsigned_lt
      omega
    · rw [readUleb128_eq hlen hlim hmem] at hread
      have hword := (Prod.mk.inj (Except.ok.inj hread)).1
      obtain ⟨hlo, hhi⟩ := unsignedRead_of_five h5
      have hunsigned := l.unsigned_lt
      rw [h5] at hunsigned
      rw [← BitVec.ofInt_natCast] at hword
      have heq := ofInt_inj ⟨by omega, by omega⟩ ⟨by omega, by omega⟩ hword
      omega
  · rintro ⟨hlen, hval⟩
    exact ⟨readUleb128_unsigned hlen hval hlim hmem, readUleb128Log_log hmem⟩

/-- **`read_sleb128` inverts the encoding** just for numbers of up to five bytes with 32 bits. -/
theorem readsSleb128_iff (hlim : cur + l.length ≤ limit) (hmem : HoldsAt mem cur l.bytes) :
    ReadsSleb128 mem cur limit l ↔ l.length ≤ 5 ∧ -2 ^ 31 ≤ l.signed ∧ l.signed < 2 ^ 31 := by
  rw [ReadsSleb128, readSleb128Log_result, readSleb128Log_log]
  have hbounds := l.signed_bounds
  constructor
  · rintro ⟨hread, -⟩
    have hlen : l.length ≤ 5 := by
      by_contra hlong
      obtain ⟨e, he⟩ := readUleb128_error limit (not_le.1 hlong) hmem
      rw [readSleb128, he] at hread
      cases hread
    refine ⟨hlen, ?_⟩
    rcases Nat.lt_or_eq_of_le hlen with hlt | h5
    · have hpow : (2 : ℤ) ^ (7 * l.length - 1) ≤ 2 ^ 27 :=
        pow_le_pow_right₀ (by norm_num) (by omega)
      omega
    · rw [readSleb128_of_five h5 hlim hmem] at hread
      have hword := (Prod.mk.inj (Except.ok.inj hread)).1
      obtain ⟨hlo, hhi⟩ := unsignedRead_of_five h5
      rw [h5] at hbounds
      rw [← ofInt_inj ⟨by omega, by omega⟩ ⟨by omega, by omega⟩ hword]
      exact ⟨hlo, hhi⟩
  · rintro ⟨hlen, hlo, hhi⟩
    exact ⟨readSleb128_signed hlen hlo hhi hlim hmem, readUleb128Log_log hmem⟩

/-- **The readers invert the encoding** just for numbers of up to five bytes whose value has 32 bits,
signed. -/
theorem leb128_read_iff (hlim : cur + l.length ≤ limit) (hmem : HoldsAt mem cur l.bytes) :
    (ReadsUleb128 mem cur limit l ↔ l.length ≤ 5 ∧ l.unsigned < 2 ^ 31) ∧
      (ReadsSleb128 mem cur limit l ↔
        l.length ≤ 5 ∧ -2 ^ 31 ≤ l.signed ∧ l.signed < 2 ^ 31) :=
  ⟨readsUleb128_iff hlim hmem, readsSleb128_iff hlim hmem⟩

/-- `2 ^ 31` in five bytes. -/
def fiveBytes : Leb where
  front := [0x80, 0x80, 0x80, 0x80]
  last := 0x08
  more := by decide
  stop := by decide

theorem fiveBytes_read :
    (ReadsUleb128 (memoryOf 0 fiveBytes.bytes) 0 5 fiveBytes ↔
        fiveBytes.length ≤ 5 ∧ fiveBytes.unsigned < 2 ^ 31) ∧
      (ReadsSleb128 (memoryOf 0 fiveBytes.bytes) 0 5 fiveBytes ↔
        fiveBytes.length ≤ 5 ∧ -2 ^ 31 ≤ fiveBytes.signed ∧ fiveBytes.signed < 2 ^ 31) :=
  leb128_read_iff (by decide) (holdsAt_memoryOf 0 _)

/-- **The fifth byte of `2 ^ 31` is read as a sign.** -/
theorem not_readsUleb128_fiveBytes :
    ¬ReadsUleb128 (memoryOf 0 fiveBytes.bytes) 0 5 fiveBytes := fun h =>
  absurd ((readsUleb128_iff (by decide) (holdsAt_memoryOf 0 _)).1 h).2 (by decide)

end Frame
end Dwarfpp
