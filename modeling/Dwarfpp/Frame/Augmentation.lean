/-
# The augmentation of a CIE

`Cie::init_augmentation_bytes` and `Cie::find_augmentation_element` with
`Cie::get_fde_encoding` (`src/frame.cpp`).  libdwarf gives the addresses of the
augmentation string and of the initial instructions; what lies between is read
again here.

`WrittenCie` is a CIE as the standard has it, with an augmentation of the letters
that the code knows; `ParsesExactly` says that its augmentation data are found and
every element in its place.  That is so just if no LEB128 number of the header is
longer than `read_uleb128` can shift, the version is not 4, for which the return
address register has no case, and the machine's address size gives a personality
pointer its width (`parsesExactly_iff`).
-/

import Mathlib
import Dwarfpp.Frame.HdrTable
import Dwarfpp.Lib.Chunks

namespace Dwarfpp
namespace Frame

open Lib

/-- What is used of a `Cie`.  The last three fields are those that `init_augmentation_bytes`
sets. -/
structure CieHeader where
  eMachine : ℕ
  version : ℕ
  augmenter : ℕ
  initialInstructions : ℕ
  addressSizeInDwarf : Byte
  segmentSizeInDwarf : Byte
  augbytes : List Byte
  deriving DecidableEq, Repr

/-- `while (*pos++);`. -/
def skipCString (mem : Memory) : ℕ → ℕ → Except Fault ℕ
  | 0, _ => .error .outOfSteps
  | fuel + 1, pos => if mem pos = 0 then .ok (pos + 1) else skipCString mem fuel (pos + 1)

/-- The characters before the null. -/
def cString (mem : Memory) : ℕ → ℕ → Except Fault (List Byte)
  | 0, _ => .error .outOfSteps
  | fuel + 1, pos =>
    if mem pos = 0 then .ok []
    else do
      let s ← cString mem fuel (pos + 1)
      return mem pos :: s

namespace CieHeader

variable (mem : Memory) (c : CieHeader)

/-- The address that the augmentation string cannot go beyond, from its start. -/
def room : ℕ := c.initialInstructions - c.augmenter

/-- Behind the augmentation string, with the sizes that version 4 has there. -/
def readSizes (pos : ℕ) : Except Fault (Byte × Byte × ℕ) :=
  if c.version = 4 then do
    assert (mem pos = 4 ∨ mem pos = 8)
    return (mem pos, mem (pos + 1), pos + 2)
  else .ok (0, 0, pos)

/-- "In CIE version 1 this is a single byte; in CIE version 3 this is an unsigned LEB128." -/
def skipReturnRegister (pos : ℕ) : Except Fault ℕ :=
  if c.version = 1 then .ok (pos + 1)
  else if c.version = 3 then do
    let (_, pos) ← readUleb128 mem pos c.initialInstructions
    return pos
  else .error .assertFailed

/-- The length that the data have, if the string begins with 'z'. -/
def readDataLength (augString : List Byte) (pos : ℕ) : Except Fault (BitVec 64 × ℕ) :=
  if augString.head? = some 0x7a then readUleb128 mem pos c.initialInstructions else .ok (0, pos)

/-- `init_augmentation_bytes()`. -/
def initAugmentationBytes : Except Fault CieHeader := do
  let pos ← skipCString mem c.room c.augmenter
  let (addressSize, segmentSize, pos) ← c.readSizes mem pos
  let (_, pos) ← readUleb128 mem pos c.initialInstructions
  let (_, pos) ← readSleb128 mem pos c.initialInstructions
  let pos ← c.skipReturnRegister mem pos
  let augString ← cString mem c.room c.augmenter
  let (expectedDataLength, pos) ← c.readDataLength mem augString pos
  let augbytes := slice mem pos (c.initialInstructions - pos)
  assert (augbytes.length = expectedDataLength.toNat)
  return { c with
    addressSizeInDwarf := addressSize
    segmentSizeInDwarf := segmentSize
    augbytes := augbytes }

/-- `get_address_size()`. -/
def addressSize : Except Fault ℕ :=
  if 0 < c.addressSizeInDwarf.toNat then .ok c.addressSizeInDwarf.toNat
  else getAddressSize c.eMachine c.version

/-- The loop of `find_augmentation_element`, with the position of `i_byte`. -/
def findElementLoop (hostBig : Bool) (marker : Byte) : List Byte → ℕ → Except Fault ℕ
  | [], _ => .ok c.augbytes.length
  | char :: rest, iByte =>
    if marker = char then .ok iByte
    -- 'L', 'R', 'S', 'P'
    else if char = 0x4c ∨ char = 0x52 then findElementLoop hostBig marker rest (iByte + 1)
    else if char = 0x53 then findElementLoop hostBig marker rest iByte
    else if char = 0x50 then
      match c.augbytes[iByte]? with
      | none => .error .undefinedBehaviour
      | some personalityEncoding => do
        let size ← c.addressSize
        let n ← encodingNbytes hostBig personalityEncoding (memoryOf 0 c.augbytes) (iByte + 1)
          c.augbytes.length size
        findElementLoop hostBig marker rest (iByte + 1 + n)
    else .error .assertFailed

/-- `find_augmentation_element(marker)`, as a position in the augmentation data. -/
def findAugmentationElement (hostBig : Bool) (marker : Byte) : Except Fault ℕ := do
  match ← cString mem c.room c.augmenter with
  | [] => return c.augbytes.length
  | char :: rest => do
    assert (char = 0x7a)
    c.findElementLoop hostBig marker rest 0

end CieHeader

/-- The letters of an augmentation. -/
inductive AugLetter
  | lsda | fdeEncoding | signal | personality
  deriving DecidableEq, Repr

/-- The character of a letter. -/
def AugLetter.char : AugLetter → Byte
  | lsda => 0x4c
  | fdeEncoding => 0x52
  | signal => 0x53
  | personality => 0x50

/-- What the elements of an augmentation hold. -/
structure AugElements where
  lsdaEncoding : Byte
  fdeEncoding : Byte
  personalityEncoding : Byte
  personality : List Byte
  deriving DecidableEq, Repr

/-- The bytes of an element. -/
def AugElements.bytes (e : AugElements) : AugLetter → List Byte
  | .lsda => [e.lsdaEncoding]
  | .fdeEncoding => [e.fdeEncoding]
  | .signal => []
  | .personality => e.personalityEncoding :: e.personality

/-- The bytes of the elements of some letters. -/
def AugElements.data (e : AugElements) (letters : List AugLetter) : List Byte :=
  letters.flatMap e.bytes

/-- A CIE up to its initial instructions, from its augmentation string on. -/
structure WrittenCie where
  version : ℕ
  addressSize : ℕ
  segmentSize : Byte
  codeAlignment : Leb
  dataAlignment : Leb
  /-- The return address register of version 1. -/
  returnByte : Byte
  /-- And of the later versions. -/
  returnRegister : Leb
  letters : List AugLetter
  elements : AugElements
  personalityFormat : EhFormat
  dataLength : Leb
  version_eq : version = 1 ∨ version = 3 ∨ version = 4
  addressSize_eq : addressSize = 4 ∨ addressSize = 8
  nodup : letters.Nodup
  format : elements.personalityEncoding &&& ~~~0xf0 = personalityFormat.code
  personality_length : elements.personality.length = personalityFormat.width addressSize
  dataLength_eq : dataLength.unsigned = (elements.data letters).length

namespace WrittenCie

variable (w : WrittenCie)

/-- The augmentation string. -/
def string : List Byte := 0x7a :: w.letters.map AugLetter.char

/-- The sizes that version 4 has. -/
def sizes : List Byte :=
  if w.version = 4 then [BitVec.ofNat 8 w.addressSize, w.segmentSize] else []

/-- The return address register. -/
def returnAddress : List Byte := if w.version = 1 then [w.returnByte] else w.returnRegister.bytes

/-- The augmentation data. -/
def data : List Byte := w.elements.data w.letters

/-- All bytes, up to the initial instructions. -/
def bytes : List Byte :=
  (w.string ++ [0]) ++ (w.sizes ++ (w.codeAlignment.bytes ++ (w.dataAlignment.bytes ++
    (w.returnAddress ++ (w.dataLength.bytes ++ w.data)))))

/-- Where the element of a character begins: behind those of the letters before it, and at the end
if it does not occur. -/
def position (marker : Byte) : ℕ :=
  (w.elements.data (w.letters.takeWhile (·.char ≠ marker))).length

/-- The CIE at an address, as libdwarf hands it over. -/
def cie (eMachine base : ℕ) : CieHeader where
  eMachine := eMachine
  version := w.version
  augmenter := base
  initialInstructions := base + w.bytes.length
  addressSizeInDwarf := 0
  segmentSizeInDwarf := 0
  augbytes := []

end WrittenCie

/-- The augmentation data of a CIE are read, and each element is found in its place. -/
def ParsesExactly (hostBig : Bool) (eMachine : ℕ) (mem : Memory) (base : ℕ) (w : WrittenCie) :
    Prop :=
  ∃ c, (w.cie eMachine base).initAugmentationBytes mem = .ok c ∧ c.augbytes = w.data ∧
    ∀ marker, c.findAugmentationElement mem hostBig marker = .ok (w.position marker)

/-- What the code can read of a header: no version 4, and no LEB128 number of six bytes or more. -/
structure WrittenCie.ReadableHeader (w : WrittenCie) : Prop where
  version : w.version ≠ 4
  codeAlignment : w.codeAlignment.length ≤ 5
  dataAlignment : w.dataAlignment.length ≤ 5
  returnRegister : w.version = 3 → w.returnRegister.length ≤ 5
  dataLength : w.dataLength.length ≤ 5

/-- The machine is one whose address size is known and gives the personality pointer its width, or
a smaller one where nothing follows the personality. -/
def WrittenCie.ReadablePersonality (w : WrittenCie) (eMachine : ℕ) : Prop :=
  .personality ∈ w.letters → ∃ n, getAddressSize eMachine w.version = .ok n ∧
    (w.personalityFormat.width n = w.personalityFormat.width w.addressSize ∨
      w.personalityFormat.width n < w.personalityFormat.width w.addressSize ∧
        w.letters.getLast? = some .personality)

section Numbers

variable {mem : Memory} {pos limit : ℕ} {l : Leb}

/-- At the sixth byte the shift is undefined. -/
theorem readUleb128Loop_sixth {start i fuel : ℕ} {working : BitVec 64} (hi : i ≤ 5)
    (hfuel : 5 - i < fuel) (hlim : start + 5 < limit)
    (hmore : ∀ j, j < 5 → 128 ≤ (mem (start + j)).toNat) :
    readUleb128Loop mem start limit fuel (start + i) working = .error .undefinedBehaviour := by
  induction fuel generalizing i working with
  | zero => omega
  | succ fuel ih =>
    rw [readUleb128Loop, if_neg (by omega), Nat.add_sub_cancel_left]
    rcases Nat.lt_or_eq_of_le hi with hlt | rfl
    · rw [if_neg (by omega), if_pos (hmore i hlt), Nat.add_assoc]
      exact ih hlt (by omega)
    · rw [if_pos (by omega)]

theorem getD_of_holdsAt {bs : List Byte} (h : HoldsAt mem pos bs) {j : ℕ} (hj : j < bs.length) :
    mem (pos + j) = bs[j] := by
  induction bs generalizing pos j with
  | nil => exact absurd hj (Nat.not_lt_zero _)
  | cons b bs ih =>
    cases j with
    | zero => exact h.1
    | succ j =>
      have hrest := ih h.2 (Nat.lt_of_succ_lt_succ hj)
      rw [Nat.add_right_comm] at hrest
      exact hrest

theorem readUleb128_long (hlong : 5 < l.length) (hlim : pos + l.length ≤ limit)
    (hmem : HoldsAt mem pos l.bytes) : readUleb128 mem pos limit = .error .undefinedBehaviour := by
  have hmore : ∀ j, j < 5 → 128 ≤ (mem (pos + j)).toNat := by
    intro j hj
    have hfront : j < l.front.length := by
      rw [Leb.length] at hlong
      omega
    rw [Leb.bytes, holdsAt_append] at hmem
    rw [getD_of_holdsAt hmem.1 hfront]
    exact l.more _ (List.getElem_mem _)
  have hloop : readUleb128Loop mem pos limit (limit - pos + 1) (pos + 0) 0#64 =
      .error .undefinedBehaviour :=
    readUleb128Loop_sixth (Nat.zero_le _) (by omega) (by omega) hmore
  rw [Nat.add_zero pos] at hloop
  rw [readUleb128, hloop]
  rfl

/-- **A number is read just if it has five bytes at most.** -/
theorem readUleb128_eq_ok_iff (hlim : pos + l.length ≤ limit) (hmem : HoldsAt mem pos l.bytes)
    {r : BitVec 64 × ℕ} : readUleb128 mem pos limit = .ok r ↔
      l.length ≤ 5 ∧ r = (BitVec.ofInt 64 (unsignedRead l), pos + l.length) := by
  rcases Nat.lt_or_ge 5 l.length with hlong | hlen
  · rw [readUleb128_long hlong hlim hmem]
    exact iff_of_false (fun h => nomatch h) fun h => absurd h.1 (Nat.not_le.2 hlong)
  · rw [readUleb128_eq hlen hlim hmem, Except.ok.injEq, eq_comm]
    exact (and_iff_right hlen).symm

theorem readSleb128_pos (hlim : pos + l.length ≤ limit) (hmem : HoldsAt mem pos l.bytes)
    {r : BitVec 64 × ℕ} (h : readSleb128 mem pos limit = .ok r) :
    l.length ≤ 5 ∧ r.2 = pos + l.length := by
  obtain ⟨⟨working, p⟩, hread, h⟩ := bind_eq_ok.1 h
  obtain ⟨hlen, hr⟩ := (readUleb128_eq_ok_iff hlim hmem).1 hread
  obtain ⟨rfl, rfl⟩ := Prod.mk.inj hr
  obtain rfl := Except.ok.inj h
  exact ⟨hlen, rfl⟩

theorem readSleb128_returns (hlen : l.length ≤ 5) (hlim : pos + l.length ≤ limit)
    (hmem : HoldsAt mem pos l.bytes) :
    ∃ value, readSleb128 mem pos limit = .ok (value, pos + l.length) := by
  rw [readSleb128, readUleb128_eq hlen hlim hmem]
  exact ⟨_, rfl⟩

end Numbers

/-- There are four letters. -/
theorem length_le_four {letters : List AugLetter} (h : letters.Nodup) : letters.length ≤ 4 := by
  have hsub : letters ⊆ [.lsda, .fdeEncoding, .signal, .personality] := by
    intro l _
    cases l <;> decide
  exact (h.subperm hsub).length_le

section Strings

variable {mem : Memory} {pos fuel : ℕ} {s : List Byte}

theorem skipCString_eq (hs : ∀ b ∈ s, b ≠ 0) (hfuel : s.length < fuel)
    (hmem : HoldsAt mem pos (s ++ [0])) :
    skipCString mem fuel pos = .ok (pos + (s ++ [0]).length) := by
  induction s generalizing pos fuel with
  | nil =>
    obtain ⟨fuel, rfl⟩ := Nat.exists_eq_succ_of_ne_zero (Nat.ne_zero_of_lt hfuel)
    rw [skipCString, if_pos hmem.1]
    rfl
  | cons b s ih =>
    obtain ⟨fuel, rfl⟩ := Nat.exists_eq_succ_of_ne_zero (Nat.ne_zero_of_lt hfuel)
    rw [List.forall_mem_cons] at hs
    obtain ⟨hb, hrest⟩ := hmem
    rw [skipCString, hb, if_neg hs.1, ih hs.2 (Nat.lt_of_succ_lt_succ hfuel) hrest]
    simp only [List.cons_append, List.length_cons]
    congr 1
    omega

theorem cString_eq (hs : ∀ b ∈ s, b ≠ 0) (hfuel : s.length < fuel)
    (hmem : HoldsAt mem pos (s ++ [0])) : cString mem fuel pos = .ok s := by
  induction s generalizing pos fuel with
  | nil =>
    obtain ⟨fuel, rfl⟩ := Nat.exists_eq_succ_of_ne_zero (Nat.ne_zero_of_lt hfuel)
    rw [cString, if_pos hmem.1]
  | cons b s ih =>
    obtain ⟨fuel, rfl⟩ := Nat.exists_eq_succ_of_ne_zero (Nat.ne_zero_of_lt hfuel)
    rw [List.forall_mem_cons] at hs
    obtain ⟨hb, hrest⟩ := hmem
    rw [cString, hb, if_neg hs.1, ih hs.2 (Nat.lt_of_succ_lt_succ hfuel) hrest]
    rfl

end Strings

namespace WrittenCie

variable (w : WrittenCie) (base : ℕ)

/-- Where the parts of a CIE begin, one behind the other. -/
def sizesAt : ℕ := base + (w.string ++ [0]).length

def codeAlignmentAt : ℕ := w.sizesAt base + w.sizes.length

def dataAlignmentAt : ℕ := w.codeAlignmentAt base + w.codeAlignment.length

def returnAddressAt : ℕ := w.dataAlignmentAt base + w.dataAlignment.length

def dataLengthAt : ℕ := w.returnAddressAt base + w.returnAddress.length

def dataAt : ℕ := w.dataLengthAt base + w.dataLength.length

theorem add_length : base + w.bytes.length = w.dataAt base + w.data.length := by
  simp only [bytes, dataAt, dataLengthAt, returnAddressAt, dataAlignmentAt, codeAlignmentAt,
    sizesAt, List.length_append, Leb.bytes_length]
  omega

/-- The parts of a CIE in memory. -/
structure Held (mem : Memory) : Prop where
  string : HoldsAt mem base (w.string ++ [0])
  sizes : HoldsAt mem (w.sizesAt base) w.sizes
  codeAlignment : HoldsAt mem (w.codeAlignmentAt base) w.codeAlignment.bytes
  dataAlignment : HoldsAt mem (w.dataAlignmentAt base) w.dataAlignment.bytes
  returnAddress : HoldsAt mem (w.returnAddressAt base) w.returnAddress
  dataLength : HoldsAt mem (w.dataLengthAt base) w.dataLength.bytes
  data : HoldsAt mem (w.dataAt base) w.data

variable {w base} {mem : Memory} {eMachine : ℕ}

theorem held_of_holdsAt (hmem : HoldsAt mem base w.bytes) : w.Held base mem := by
  rw [bytes, holdsAt_append, holdsAt_append _ _ w.sizes, holdsAt_append _ _ w.codeAlignment.bytes,
    holdsAt_append _ _ w.dataAlignment.bytes, holdsAt_append _ _ w.returnAddress,
    holdsAt_append _ _ w.dataLength.bytes] at hmem
  obtain ⟨h₁, h₂, h₃, h₄, h₅, h₆, h₇⟩ := hmem
  simp only [Leb.bytes_length] at h₄ h₅ h₆ h₇
  exact ⟨h₁, h₂, h₃, h₄, h₅, h₆, h₇⟩

/-- The order of the parts, up to the initial instructions. -/
theorem parts_le (w : WrittenCie) (base : ℕ) :
    w.codeAlignmentAt base + w.codeAlignment.length ≤ base + w.bytes.length ∧
    w.dataAlignmentAt base + w.dataAlignment.length ≤ base + w.bytes.length ∧
    w.returnAddressAt base + w.returnAddress.length ≤ base + w.bytes.length ∧
    w.dataLengthAt base + w.dataLength.length ≤ base + w.bytes.length := by
  rw [add_length]
  simp only [dataAt, dataLengthAt, returnAddressAt, dataAlignmentAt]
  omega

theorem string_ne_zero : ∀ b ∈ w.string, b ≠ 0 := by
  have hchar : ∀ l : AugLetter, l.char ≠ 0 := by
    intro l
    cases l <;> decide
  intro b hb
  rcases List.mem_cons.1 hb with rfl | hb
  · decide
  · obtain ⟨l, -, rfl⟩ := List.mem_map.1 hb
    exact hchar l

theorem string_length_lt : w.string.length < w.bytes.length := by
  simp only [bytes, List.length_append, List.length_singleton]
  omega

/-- The string is read in both ways. -/
theorem string_read (eMachine : ℕ) (h : w.Held base mem) :
    skipCString mem (w.cie eMachine base).room base = .ok (w.sizesAt base) ∧
      cString mem (w.cie eMachine base).room base = .ok w.string := by
  have hroom : (w.cie eMachine base).room = w.bytes.length := Nat.add_sub_cancel_left _ _
  rw [hroom]
  exact ⟨skipCString_eq string_ne_zero string_length_lt h.string,
    cString_eq string_ne_zero string_length_lt h.string⟩

/-- An augmentation has no more than four elements, and so few bytes that their number is read
right. -/
theorem data_length_lt : w.dataLength.unsigned < 2 ^ 31 := by
  have hletters := length_le_four w.nodup
  have hbytes : ∀ l, (w.elements.bytes l).length ≤ 9 := by
    intro l
    have hwidth := EhFormat.width_le (f := w.personalityFormat) w.addressSize_eq
    have hlen := w.personality_length
    cases l <;> simp only [AugElements.bytes, List.length_cons, List.length_nil] <;> omega
  have hdata : ∀ letters : List AugLetter,
      (w.elements.data letters).length ≤ 9 * letters.length := by
    intro letters
    induction letters with
    | nil => exact Nat.le_refl 0
    | cons l letters ih =>
      have hl := hbytes l
      rw [AugElements.data, List.flatMap_cons, List.length_append, ← AugElements.data,
        List.length_cons]
      omega
  have := hdata w.letters
  rw [w.dataLength_eq]
  omega

/-- The CIE with its augmentation data. -/
def parsed (w : WrittenCie) (eMachine base : ℕ) : CieHeader :=
  { w.cie eMachine base with augbytes := w.data }

theorem readSizes_eq (hversion : w.version ≠ 4) :
    (w.cie eMachine base).readSizes mem (w.sizesAt base) = .ok (0, 0, w.codeAlignmentAt base) := by
  have hsizes : w.codeAlignmentAt base = w.sizesAt base := by
    rw [codeAlignmentAt, sizes, if_neg hversion]
    rfl
  rw [hsizes]
  exact if_neg hversion

/-- The return address register is skipped just if it is short enough and has a case. -/
theorem skipReturnRegister_eq_ok_iff (h : w.Held base mem) (hversion : w.version ≠ 4) {pos : ℕ} :
    (w.cie eMachine base).skipReturnRegister mem (w.returnAddressAt base) = .ok pos ↔
      (w.version = 3 → w.returnRegister.length ≤ 5) ∧ pos = w.dataLengthAt base := by
  have hra := h.returnAddress
  have hle := (w.parts_le base).2.2.1
  rw [CieHeader.skipReturnRegister, dataLengthAt]
  rw [returnAddress] at hra hle ⊢
  rcases w.version_eq with hone | hthree | hfour
  · rw [if_pos hone, if_pos (show (w.cie eMachine base).version = 1 from hone), Except.ok.injEq,
      hone]
    simp [eq_comm]
  · have hne : w.version ≠ 1 := by omega
    rw [if_neg hne] at hra hle ⊢
    rw [if_neg (show (w.cie eMachine base).version ≠ 1 from hne),
      if_pos (show (w.cie eMachine base).version = 3 from hthree)]
    rw [Leb.bytes_length] at hle ⊢
    constructor
    · intro hread
      obtain ⟨r, hr, hread⟩ := bind_eq_ok.1 hread
      obtain ⟨hlen, rfl⟩ := (readUleb128_eq_ok_iff hle hra).1 hr
      exact ⟨fun _ => hlen, (Except.ok.inj hread).symm⟩
    · rintro ⟨hlen, rfl⟩
      exact bind_eq_ok.2 ⟨_, (readUleb128_eq_ok_iff hle hra).2 ⟨hlen hthree, rfl⟩, rfl⟩
  · exact absurd hfour hversion

theorem readDataLength_eq (eMachine base : ℕ) (pos : ℕ) :
    (w.cie eMachine base).readDataLength mem w.string pos =
      readUleb128 mem pos (base + w.bytes.length) := rfl

/-- **With a readable header the augmentation data are found.** -/
theorem initAugmentationBytes_eq (h : w.Held base mem) (hr : w.ReadableHeader) :
    (w.cie eMachine base).initAugmentationBytes mem = .ok (w.parsed eMachine base) := by
  obtain ⟨hcode, hdata, hra, hlength⟩ := w.parts_le base
  obtain ⟨hskip, hstring⟩ := w.string_read eMachine h
  obtain ⟨value, hsleb⟩ := readSleb128_returns hr.dataAlignment hdata h.dataAlignment
  have hreturn : (w.cie eMachine base).skipReturnRegister mem (w.returnAddressAt base) =
      .ok (w.dataLengthAt base) :=
    (skipReturnRegister_eq_ok_iff h hr.version).2 ⟨hr.returnRegister, rfl⟩
  have hlt := w.data_length_lt
  have huleb := readUleb128_unsigned hr.dataLength hlt hlength h.dataLength
  have hend : base + w.bytes.length - w.dataAt base = w.data.length := by
    rw [add_length]
    exact Nat.add_sub_cancel_left _ _
  have hslice : slice mem (w.dataAt base) (base + w.bytes.length - w.dataAt base) = w.data := by
    rw [hend]
    exact slice_of_holdsAt h.data
  have hcount : w.data.length = (BitVec.ofNat 64 w.dataLength.unsigned).toNat := by
    rw [BitVec.toNat_ofNat, Nat.mod_eq_of_lt (by omega), w.dataLength_eq, WrittenCie.data]
  show (do
    let pos ← skipCString mem (w.cie eMachine base).room base
    let (addressSize, segmentSize, pos) ← (w.cie eMachine base).readSizes mem pos
    let (_, pos) ← readUleb128 mem pos (base + w.bytes.length)
    let (_, pos) ← readSleb128 mem pos (base + w.bytes.length)
    let pos ← (w.cie eMachine base).skipReturnRegister mem pos
    let augString ← cString mem (w.cie eMachine base).room base
    let (expectedDataLength, pos) ← (w.cie eMachine base).readDataLength mem augString pos
    let augbytes := slice mem pos (base + w.bytes.length - pos)
    assert (augbytes.length = expectedDataLength.toNat)
    return { w.cie eMachine base with
      addressSizeInDwarf := addressSize
      segmentSizeInDwarf := segmentSize
      augbytes := augbytes }) = _
  rw [hskip, ok_bind, readSizes_eq hr.version, ok_bind]
  dsimp only
  rw [readUleb128_eq hr.codeAlignment hcode h.codeAlignment, ok_bind]
  dsimp only
  rw [← dataAlignmentAt, hsleb, ok_bind]
  dsimp only
  rw [← returnAddressAt, hreturn, ok_bind, hstring, ok_bind, readDataLength_eq, huleb, ok_bind]
  dsimp only
  rw [← dataAt, hslice, assert_ok hcount]
  rfl

/-- **And only then.** -/
theorem readableHeader_of_init (h : w.Held base mem) {c : CieHeader}
    (hinit : (w.cie eMachine base).initAugmentationBytes mem = .ok c) : w.ReadableHeader := by
  obtain ⟨hcode, hdata, hra, hlength⟩ := w.parts_le base
  obtain ⟨hskip, hstring⟩ := w.string_read eMachine h
  obtain ⟨pos₁, hpos₁, hinit⟩ := bind_eq_ok.1 hinit
  obtain rfl := Except.ok.inj (hskip.symm.trans hpos₁)
  obtain ⟨⟨_, _, pos₂⟩, hsizes, hinit⟩ := bind_eq_ok.1 hinit
  obtain ⟨⟨_, pos₃⟩, hread₃, hinit⟩ := bind_eq_ok.1 hinit
  obtain ⟨⟨_, pos₄⟩, hread₄, hinit⟩ := bind_eq_ok.1 hinit
  obtain ⟨pos₅, hreturn, hinit⟩ := bind_eq_ok.1 hinit
  obtain ⟨augString, haug, hinit⟩ := bind_eq_ok.1 hinit
  obtain rfl := Except.ok.inj (hstring.symm.trans haug)
  obtain ⟨r, hread₆, -⟩ := bind_eq_ok.1 hinit
  have hversion : w.version ≠ 4 := by
    intro hfour
    have hone : (w.cie eMachine base).version ≠ 1 := fun hv => by
      rw [show w.version = 1 from hv] at hfour
      cases hfour
    have hthree : (w.cie eMachine base).version ≠ 3 := fun hv => by
      rw [show w.version = 3 from hv] at hfour
      cases hfour
    rw [CieHeader.skipReturnRegister, if_neg hone, if_neg hthree] at hreturn
    cases hreturn
  rw [readSizes_eq hversion] at hsizes
  obtain ⟨-, hsizes⟩ := Prod.mk.inj (Except.ok.inj hsizes)
  obtain ⟨-, rfl⟩ := Prod.mk.inj hsizes
  obtain ⟨hlen₃, hr₃⟩ := (readUleb128_eq_ok_iff hcode h.codeAlignment).1 hread₃
  obtain ⟨-, rfl⟩ := Prod.mk.inj hr₃
  obtain ⟨hlen₄, rfl⟩ := readSleb128_pos hdata h.dataAlignment hread₄
  obtain ⟨hlen₅, rfl⟩ := (skipReturnRegister_eq_ok_iff h hversion).1 hreturn
  have hlen₆ := ((readUleb128_eq_ok_iff hlength h.dataLength).1 hread₆).1
  exact ⟨hversion, hlen₃, hlen₄, hlen₅, hlen₆⟩

end WrittenCie

section Elements

variable {c : CieHeader} {hostBig : Bool} {marker : Byte} {e : AugElements}

/-- Letters other than that of the personality are passed by their bytes. -/
theorem findElementLoop_skip {letters : List AugLetter} (hnone : .personality ∉ letters)
    (hmarker : ∀ l ∈ letters, marker ≠ l.char) (rest : List Byte) (iByte : ℕ) :
    c.findElementLoop hostBig marker (letters.map AugLetter.char ++ rest) iByte =
      c.findElementLoop hostBig marker rest (iByte + (e.data letters).length) := by
  induction letters generalizing iByte with
  | nil => rfl
  | cons l letters ih =>
    rw [List.forall_mem_cons] at hmarker
    rw [List.mem_cons, not_or] at hnone
    have hrest := ih hnone.2 hmarker.2
    have hdata : (e.data (l :: letters)).length = (e.bytes l).length + (e.data letters).length := by
      rw [AugElements.data, List.flatMap_cons, List.length_append]
      rfl
    rw [List.map_cons, List.cons_append, CieHeader.findElementLoop, if_neg hmarker.1, hdata,
      ← Nat.add_assoc]
    cases l with
    | lsda => rw [if_pos (.inl rfl), hrest]; rfl
    | fdeEncoding => rw [if_pos (.inr rfl), hrest]; rfl
    | signal =>
      rw [if_neg (by decide), if_pos (show AugLetter.signal.char = 0x53 from rfl), hrest]
      rfl
    | personality => exact absurd rfl hnone.1

theorem data_cons (l : AugLetter) (letters : List AugLetter) :
    e.data (l :: letters) = e.bytes l ++ e.data letters := List.flatMap_cons

theorem data_append (letters letters' : List AugLetter) :
    e.data (letters ++ letters') = e.data letters ++ e.data letters' := List.flatMap_append

/-- Past the personality: its encoding is read, and as many bytes as it says. -/
theorem findElementLoop_personality {iByte : ℕ} {encoding : Byte} (hmarker : marker ≠ 0x50)
    (hget : c.augbytes[iByte]? = some encoding) (rest : List Byte) :
    c.findElementLoop hostBig marker (0x50 :: rest) iByte = (do
      let size ← c.addressSize
      let n ← encodingNbytes hostBig encoding (memoryOf 0 c.augbytes) (iByte + 1)
        c.augbytes.length size
      c.findElementLoop hostBig marker rest (iByte + 1 + n)) := by
  rw [CieHeader.findElementLoop, if_neg hmarker, if_neg (by decide), if_neg (by decide),
    if_pos rfl, hget]

theorem char_inj {l l' : AugLetter} (h : l.char = l'.char) : l = l' := by
  cases l <;> cases l' <;> first | rfl | exact absurd h (by decide)

theorem getElem?_of_drop {α : Type} {l rest : List α} {n : ℕ} {a : α} (h : l.drop n = a :: rest) :
    l[n]? = some a := by
  rw [← Nat.add_zero n, ← List.getElem?_drop, h]
  rfl

/-- But for the personality an element is a byte at most. -/
theorem data_length_le {letters : List AugLetter} (h : .personality ∉ letters) :
    (e.data letters).length ≤ letters.length := by
  induction letters with
  | nil => exact Nat.le_refl 0
  | cons l letters ih =>
    rw [List.mem_cons, not_or] at h
    have hl : (e.bytes l).length ≤ 1 := by
      cases l with
      | personality => exact absurd rfl h.1
      | signal => exact Nat.zero_le 1
      | _ => exact Nat.le_refl 1
    have hrest := ih h.2
    rw [data_cons, List.length_append, List.length_cons]
    omega

variable {f : EhFormat}

/-- **Every element is found in its place**, from any of the letters on. -/
theorem findElementLoop_eq {letters : List AugLetter} (hnodup : letters.Nodup) {iByte : ℕ}
    (hle : iByte ≤ c.augbytes.length) (hdrop : c.augbytes.drop iByte = e.data letters)
    (henc : e.personalityEncoding &&& ~~~0xf0 = f.code)
    (hpersonality : .personality ∈ letters → ∃ n, c.addressSize = .ok n ∧ (n = 4 ∨ n = 8) ∧
      (f.width n = e.personality.length ∨
        f.width n < e.personality.length ∧ letters.getLast? = some .personality)) :
    c.findElementLoop hostBig marker (letters.map AugLetter.char) iByte =
      .ok (iByte + (e.data (letters.takeWhile (·.char ≠ marker))).length) := by
  have hlen : c.augbytes.length = iByte + (e.data letters).length := by
    rw [← hdrop, List.length_drop]
    omega
  induction letters generalizing iByte with
  | nil => exact congrArg Except.ok hlen
  | cons l letters ih =>
    by_cases hmarker : marker = l.char
    · rw [List.map_cons, CieHeader.findElementLoop, if_pos hmarker,
        List.takeWhile_cons_of_neg (by simpa using hmarker.symm)]
      rfl
    rw [List.takeWhile_cons_of_pos (by simpa using Ne.symm hmarker), data_cons, List.length_append,
      ← Nat.add_assoc]
    rw [data_cons] at hdrop
    rw [data_cons, List.length_append] at hlen
    obtain ⟨hnot, hnodup⟩ := List.nodup_cons.1 hnodup
    -- what the rest of the letters needs, where a further letter follows
    have hrest : .personality ∈ letters → ∃ n, c.addressSize = .ok n ∧ (n = 4 ∨ n = 8) ∧
        (f.width n = e.personality.length ∨
          f.width n < e.personality.length ∧ letters.getLast? = some .personality) := by
      intro hmem
      have hlast : (l :: letters).getLast? = letters.getLast? := by
        obtain ⟨l', rest, rfl⟩ := List.exists_cons_of_ne_nil (List.ne_nil_of_mem hmem)
        rfl
      rw [← hlast]
      exact hpersonality (List.mem_cons_of_mem _ hmem)
    have hnext := ih hnodup (by omega) (drop_of_drop_eq_append hdrop) hrest (by omega)
    rw [← hnext, List.map_cons]
    cases l with
    | lsda => rw [CieHeader.findElementLoop, if_neg hmarker, if_pos (.inl rfl)]; rfl
    | fdeEncoding => rw [CieHeader.findElementLoop, if_neg hmarker, if_pos (.inr rfl)]; rfl
    | signal =>
      rw [CieHeader.findElementLoop, if_neg hmarker, if_neg (by decide),
        if_pos (show AugLetter.signal.char = 0x53 from rfl)]
      rfl
    | personality =>
      obtain ⟨n, hn, hsizes, hwidth⟩ := hpersonality List.mem_cons_self
      have hbytes : (e.bytes .personality).length = 1 + e.personality.length :=
        (List.length_cons ..).trans (Nat.add_comm _ _)
      rw [hbytes] at hlen
      show c.findElementLoop hostBig marker (0x50 :: letters.map AugLetter.char) iByte = _
      rw [findElementLoop_personality hmarker (getElem?_of_drop hdrop), hn, ok_bind,
        encodingNbytes_eq hsizes henc (by omega), ok_bind, hbytes]
      rcases hwidth with hwidth | ⟨-, hlast⟩
      · rw [hwidth, Nat.add_assoc]
      -- nothing follows, and the end is the end
      · obtain rfl : letters = [] := by
          cases letters with
          | nil => rfl
          | cons l' rest =>
            have hlast' : (l' :: rest).getLast? = some .personality := hlast
            exact absurd (List.mem_of_getLast? hlast') hnot
        rfl

/-- **And only if the personality can be passed.**  One marker does not occur, and another is that
of the letter behind the personality. -/
theorem width_of_findElementLoop {letters : List AugLetter} (hnodup : letters.Nodup)
    (hdata : c.augbytes = e.data letters) (henc : e.personalityEncoding &&& ~~~0xf0 = f.code)
    {addressSize : ℕ} (hsize : addressSize = 4 ∨ addressSize = 8)
    (hlength : e.personality.length = f.width addressSize)
    (hsizes : ∀ n, c.addressSize = .ok n → n = 4 ∨ n = 8)
    (hmem : .personality ∈ letters)
    (hfind : ∀ marker, c.findElementLoop hostBig marker (letters.map AugLetter.char) 0 =
      .ok (e.data (letters.takeWhile (·.char ≠ marker))).length) :
    ∃ n, c.addressSize = .ok n ∧ (f.width n = f.width addressSize ∨
      f.width n < f.width addressSize ∧ letters.getLast? = some .personality) := by
  obtain ⟨before, after, rfl⟩ := List.append_of_mem hmem
  obtain ⟨-, hcons, hdisjoint⟩ := List.nodup_append.1 hnodup
  obtain ⟨hafter, hnodup'⟩ := List.nodup_cons.1 hcons
  have hbefore : .personality ∉ before := fun h =>
    hdisjoint _ h _ List.mem_cons_self rfl
  have hdrop : c.augbytes.drop (e.data before).length =
      e.personalityEncoding :: (e.personality ++ e.data after) := by
    rw [hdata, data_append, List.drop_left, data_cons]
    rfl
  -- a marker that is not among the letters up to the personality leads past it
  have hpast : ∀ marker, (∀ l ∈ before, marker ≠ l.char) → marker ≠ 0x50 →
      c.findElementLoop hostBig marker ((before ++ .personality :: after).map AugLetter.char) 0 =
        (do
          let size ← c.addressSize
          let n ← encodingNbytes hostBig e.personalityEncoding (memoryOf 0 c.augbytes)
            ((e.data before).length + 1) c.augbytes.length size
          c.findElementLoop hostBig marker (after.map AugLetter.char)
            ((e.data before).length + 1 + n)) := by
    intro marker hmarker hne
    rw [List.map_append, findElementLoop_skip hbefore hmarker, Nat.zero_add, List.map_cons]
    exact findElementLoop_personality hne (getElem?_of_drop hdrop) _
  have hzero := hfind 0
  rw [hpast 0 (fun l _ => by cases l <;> decide) (by decide)] at hzero
  obtain ⟨n, hn, hzero⟩ := bind_eq_ok.1 hzero
  obtain ⟨k, hk, -⟩ := bind_eq_ok.1 hzero
  obtain ⟨rfl, hroom⟩ := encodingNbytes_fixed (hsizes n hn) henc hk
  refine ⟨n, hn, ?_⟩
  have hlen : c.augbytes.length =
      (e.data before).length + (1 + e.personality.length + (e.data after).length) := by
    have h := congrArg List.length hdrop
    rw [List.length_drop, List.length_cons, List.length_append] at h
    omega
  rcases Nat.lt_trichotomy (f.width n) (f.width addressSize) with hlt | heq | hgt
  · refine .inr ⟨hlt, ?_⟩
    cases after with
    | nil => rw [List.getLast?_append_of_ne_nil _ (by simp)]; rfl
    | cons l after =>
      exfalso
      have hpersonality : l ≠ .personality := fun h => hafter (h ▸ List.mem_cons_self)
      have hmarker : ∀ l' ∈ before, l.char ≠ l'.char := fun l' hl' h =>
        hdisjoint l' hl' l (List.mem_cons_of_mem _ List.mem_cons_self) (char_inj h).symm
      have hfound := hfind l.char
      have htake : (before ++ .personality :: l :: after).takeWhile (·.char ≠ l.char) =
          before ++ [.personality] := by
        rw [List.takeWhile_append_of_pos fun l' hl' => by simpa using (hmarker l' hl').symm,
          List.takeWhile_cons_of_pos
            (by simpa using fun h => hpersonality (@char_inj l .personality h.symm)),
          List.takeWhile_cons_of_neg (by simp)]
      rw [hpast _ hmarker fun h => hpersonality (@char_inj l .personality h), hn, ok_bind, hk,
        ok_bind, List.map_cons, CieHeader.findElementLoop, if_pos rfl, htake, data_append,
        List.length_append] at hfound
      have hposition := Except.ok.inj hfound
      have hbytes : (e.data [.personality]).length = e.personality.length + 1 := by
        rw [data_cons, List.length_append]
        rfl
      omega
  · exact .inl heq
  -- there is not so much behind the personality as a larger pointer would have
  · have hwide : f.width n = 8 ∧ f.width addressSize = 4 := by
      have hn' := hsizes n hn
      cases f <;> simp only [EhFormat.width] at hgt ⊢ <;> omega
    have hfew : (.personality :: after).length ≤ 4 := length_le_four hcons
    have hone : (e.data after).length ≤ after.length := data_length_le hafter
    rw [List.length_cons] at hfew
    omega

end Elements

section Parsing

variable {w : WrittenCie} {hostBig : Bool} {eMachine base : ℕ} {mem : Memory}

theorem parsed_addressSize : (w.parsed eMachine base).addressSize =
    getAddressSize eMachine w.version := rfl

/-- The search in a CIE that has been read goes through its letters. -/
theorem findAugmentationElement_parsed (h : w.Held base mem) (marker : Byte) :
    (w.parsed eMachine base).findAugmentationElement mem hostBig marker =
      (w.parsed eMachine base).findElementLoop hostBig marker (w.letters.map AugLetter.char) 0 := by
  have hstring : cString mem (w.parsed eMachine base).room (w.parsed eMachine base).augmenter =
      .ok w.string := (w.string_read eMachine h).2
  rw [CieHeader.findAugmentationElement, hstring]
  rfl

theorem readablePersonality_iff (h : w.Held base mem) :
    (∀ marker, (w.parsed eMachine base).findAugmentationElement mem hostBig marker =
      .ok (w.position marker)) ↔ w.ReadablePersonality eMachine := by
  simp only [findAugmentationElement_parsed h]
  have hsizes : ∀ n, (w.parsed eMachine base).addressSize = .ok n → n = 4 ∨ n = 8 := fun n hn =>
    getAddressSize_eq (parsed_addressSize.symm.trans hn)
  constructor
  · intro hfind hmem
    exact width_of_findElementLoop w.nodup rfl w.format w.addressSize_eq w.personality_length hsizes
      hmem hfind
  · intro hreadable marker
    have hloop : (w.parsed eMachine base).findElementLoop hostBig marker
        (w.letters.map AugLetter.char) 0 = .ok (0 + w.position marker) :=
      findElementLoop_eq w.nodup (Nat.zero_le _) rfl w.format fun hmem => by
        obtain ⟨n, hn, hwidth⟩ := hreadable hmem
        rw [w.personality_length]
        exact ⟨n, hn, hsizes n hn, hwidth⟩
    rw [hloop, Nat.zero_add]

/-- **The augmentation data are read and every element is found in its place just if the header
and the personality are readable.** -/
theorem parsesExactly_iff (hmem : HoldsAt mem base w.bytes) :
    ParsesExactly hostBig eMachine mem base w ↔
      w.ReadableHeader ∧ w.ReadablePersonality eMachine := by
  have h := WrittenCie.held_of_holdsAt hmem
  constructor
  · rintro ⟨c, hinit, -, hfind⟩
    have hheader := WrittenCie.readableHeader_of_init h hinit
    obtain rfl := Except.ok.inj ((WrittenCie.initAugmentationBytes_eq h hheader).symm.trans hinit)
    exact ⟨hheader, (readablePersonality_iff h).1 hfind⟩
  · rintro ⟨hheader, hpersonality⟩
    exact ⟨_, WrittenCie.initAugmentationBytes_eq h hheader, rfl,
      (readablePersonality_iff h).2 hpersonality⟩

/-- The CIE that compilers write for x86-64, `zR` with `DW_EH_PE_pcrel | DW_EH_PE_sdata4`, of some
version. -/
def zrCie (version : ℕ) (h : version = 1 ∨ version = 3 ∨ version = 4) : WrittenCie where
  version := version
  addressSize := 8
  segmentSize := 0
  codeAlignment := ⟨[], 1, Leb.nil_more, by decide⟩
  dataAlignment := ⟨[], 0x78, Leb.nil_more, by decide⟩
  returnByte := 16
  returnRegister := ⟨[], 16, Leb.nil_more, by decide⟩
  letters := [.fdeEncoding]
  elements := ⟨0, 0x1b, 0, List.replicate 8 0⟩
  personalityFormat := .absptr
  dataLength := ⟨[], 1, Leb.nil_more, by decide⟩
  version_eq := h
  addressSize_eq := .inr rfl
  nodup := by decide
  format := by decide
  personality_length := rfl
  dataLength_eq := by decide

theorem zrCie_parsesExactly :
    HoldsAt (memoryOf 0 (zrCie 1 (.inl rfl)).bytes) 0 (zrCie 1 (.inl rfl)).bytes ∧
      ParsesExactly false 62 (memoryOf 0 (zrCie 1 (.inl rfl)).bytes) 0 (zrCie 1 (.inl rfl)) := by
  have hmem := holdsAt_memoryOf 0 (zrCie 1 (.inl rfl)).bytes
  refine ⟨hmem, (parsesExactly_iff hmem).2 ⟨⟨?_, ?_, ?_, ?_, ?_⟩, fun h => ?_⟩⟩
  any_goals decide
  exact absurd h (by decide)

/-- Of version 4 even this one is not read. -/
theorem not_parsesExactly_versionFour :
    ¬∀ (hostBig : Bool) (eMachine : ℕ) (mem : Memory) (base : ℕ) (w : WrittenCie),
      HoldsAt mem base w.bytes → ParsesExactly hostBig eMachine mem base w := by
  intro hall
  have hmem := holdsAt_memoryOf 0 (zrCie 4 (.inr (.inr rfl))).bytes
  obtain ⟨c, hinit, -⟩ := hall false 62 _ 0 _ hmem
  exact (WrittenCie.readableHeader_of_init (WrittenCie.held_of_holdsAt hmem) hinit).version rfl

end Parsing

end Frame
end Dwarfpp
