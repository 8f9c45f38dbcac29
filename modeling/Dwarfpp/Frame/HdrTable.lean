/-
# The search table of `.eh_frame_hdr`

`FrameSection::init_eh_frame_hdr` (`src/frame.cpp`) from the point at which the
section is found, and `FrameSection::hdr_tbl_iterator` with `hdr_tbl_begin` and
`hdr_tbl_end` (`include/dwarfpp/frame.hpp`).  The iterator adapts a byte pointer
with a stride of two encoded values.

`increment`, `advance` and `dereference` go by entries (`dereference_advance`).
Distance and equality are not overridden: they are those of the byte pointer, and
the end is that of the section.  So the iterators are no sequence of `fde_count`
entries for any header (`not_isSequence`).
-/

import Mathlib
import Dwarfpp.Frame.PointerEncoding

namespace Dwarfpp
namespace Frame

open Lib

/-- `FrameSection::get_address_size(version)`, for `EM_X86_64` and `EM_386`. -/
def getAddressSize (eMachine : ℕ) (version : ℕ := 1) : Except Fault ℕ := do
  assert (version = 1 ∨ version = 3)
  if eMachine = 62 then return 8
  else if eMachine = 3 then return 4
  else .error .assertFailed

/-- What `init_eh_frame_hdr` sets where it succeeds. -/
structure EhFrameHdr where
  ehFrameSectionStart : BitVec 64
  hdrTblFdeCount : BitVec 64
  hdrTbl : ℕ
  hdrTblNbytes : ℕ
  hdrTblEncoding : Byte
  hdrTblEncodedValueSize : ℕ
  hdrVaddr : BitVec 64
  deriving DecidableEq, Repr

/-- `init_eh_frame_hdr`, where the section's data are the `scn_nbytes` bytes at `scn_data` and its
program header has the address `p_vaddr`.  Nothing is returned for a version that is not
understood. -/
def initEhFrameHdr (hostBig : Bool) (eMachine : ℕ) (mem : Memory) (scnData scnNbytes : ℕ)
    (pVaddr : BitVec 64) : Except Fault (Option EhFrameHdr) := do
  -- `sizeof (hdr_ident)`: the version, and the encodings of the pointer, the count and the table
  assert (4 < scnNbytes)
  if mem scnData ≠ 1 then return none
  else
    let limit := scnData + scnNbytes
    let addressSize ← getAddressSize eMachine
    let (start, pos) ←
      readWithEncoding hostBig (mem (scnData + 1)) mem (scnData + 4) limit addressSize true
    let (count, pos) ← readWithEncoding hostBig (mem (scnData + 2)) mem pos limit addressSize true
    let nbytes := scnNbytes - (pos - scnData)
    let size ←
      encodingNbytes hostBig (mem (scnData + 3)) mem pos (pos + nbytes) addressSize
    return some
      { ehFrameSectionStart := start
        hdrTblFdeCount := count
        hdrTbl := pos
        hdrTblNbytes := nbytes
        hdrTblEncoding := mem (scnData + 3)
        hdrTblEncodedValueSize := size
        hdrVaddr := pVaddr }

/-- What `boost::iterator_adaptor` gives a derived iterator that does not say otherwise: equality
and distance are those of the adapted pointers. -/
structure IteratorAdaptor where
  equal : ℕ → ℕ → Bool
  distanceTo : ℕ → ℕ → ℤ
  equal_iff : ∀ a b, equal a b = true ↔ a = b
  distanceTo_eq : ∀ a b, distanceTo a b = (b : ℤ) - a

namespace EhFrameHdr

variable (h : EhFrameHdr)

/-- `increment()`. -/
def increment (base : ℕ) : ℕ := base + 2 * h.hdrTblEncodedValueSize

/-- `advance(n)`. -/
def advance (base : ℕ) (n : ℤ) : ℕ := (base + 2 * n * h.hdrTblEncodedValueSize).toNat

/-- `hdr_tbl_begin()`. -/
def hdrTblBegin : ℕ := h.hdrTbl

/-- `hdr_tbl_end()`. -/
def hdrTblEnd : ℕ := h.hdrTbl + h.hdrTblNbytes

/-- `dereference_raw()`. -/
def dereferenceRaw (hostBig : Bool) (eMachine : ℕ) (mem : Memory) (base : ℕ) :
    Except Fault (BitVec 64 × BitVec 64) := do
  let limit := h.hdrTbl + h.hdrTblNbytes
  let addressSize ← getAddressSize eMachine
  let (initialLocationRaw, pos) ←
    readWithEncoding hostBig h.hdrTblEncoding mem base limit addressSize true
  let (addr, _) ← readWithEncoding hostBig h.hdrTblEncoding mem pos limit addressSize true
  return (initialLocationRaw, addr)

/-- The signed number that a raw value of the given size is, "despite appearances". -/
def delta (size : ℕ) (raw : BitVec 64) : Except Fault (BitVec 64) :=
  if size = 8 then .ok raw
  else if size = 4 then .ok ((raw.setWidth 32).signExtend 64)
  else if size = 2 then .ok ((raw.setWidth 16).signExtend 64)
  else if size = 1 then .ok ((raw.setWidth 8).signExtend 64)
  else .error .assertFailed

/-- `dereference()`.  An `abort()` is modelled like a failed assertion. -/
def dereference (hostBig : Bool) (eMachine : ℕ) (mem : Memory) (base : ℕ) :
    Except Fault (BitVec 64 × BitVec 64) := do
  let p ← h.dereferenceRaw hostBig eMachine mem base
  -- `DW_EH_PE_absptr`
  if h.hdrTblEncoding &&& 0xf0 = 0x00 then return p
  -- `DW_EH_PE_datarel`
  else if h.hdrTblEncoding &&& 0xf0 = 0x30 then do
    let d ← delta h.hdrTblEncodedValueSize p.1
    return (h.hdrVaddr + d, p.2)
  else .error .assertFailed

/-- The location that an encoded number stands for. -/
def resolved (v : ℤ) : BitVec 64 :=
  if h.hdrTblEncoding &&& 0xf0 = 0x30 then h.hdrVaddr + BitVec.ofInt 64 v else BitVec.ofInt 64 v

/-- The table's encoding has a fixed width and is absolute or relative to the section. -/
structure FixedWidth (f : EhFormat) : Prop where
  format : h.hdrTblEncoding &&& ~~~0xf0 = f.code
  application : h.hdrTblEncoding &&& 0xf0 = 0x00 ∨ h.hdrTblEncoding &&& 0xf0 = 0x30

/-- The bytes of a table. -/
def tableBytes (hostBig : Bool) (addressSize : ℕ) (f : EhFormat) (entries : List (ℤ × ℤ)) :
    List Byte :=
  entries.flatMap fun p =>
    f.encode hostBig true addressSize p.1 ++ f.encode hostBig true addressSize p.2

/-- The iterators are a random-access sequence of exactly the declared number of entries. -/
structure IsSequence (boost : IteratorAdaptor) (hostBig : Bool) (eMachine : ℕ) (mem : Memory) :
    Prop where
  atEnd : boost.equal (h.advance h.hdrTblBegin h.hdrTblFdeCount.toNat) h.hdrTblEnd = true
  difference : ∀ i j : ℕ, i ≤ h.hdrTblFdeCount.toNat → j ≤ h.hdrTblFdeCount.toNat →
    boost.distanceTo (h.advance h.hdrTblBegin i) (h.advance h.hdrTblBegin j) = (j : ℤ) - i
  increments : ∀ n : ℕ, n ≤ h.hdrTblFdeCount.toNat →
    h.increment^[n] h.hdrTblBegin = h.advance h.hdrTblBegin n
  entry : ∀ (f : EhFormat) (addressSize : ℕ) (entries : List (ℤ × ℤ)),
    h.hdrTblEncoding &&& ~~~0xf0 = f.code → getAddressSize eMachine = .ok addressSize →
    entries.length = h.hdrTblFdeCount.toNat →
    (∀ p ∈ entries, f.Representable addressSize p.1 ∧ f.Representable addressSize p.2) →
    HoldsAt mem h.hdrTbl (tableBytes hostBig addressSize f entries) →
    ∀ i (hi : i < entries.length),
      h.dereference hostBig eMachine mem (h.advance h.hdrTblBegin i) =
        .ok (h.resolved entries[i].1, BitVec.ofInt 64 entries[i].2)

end EhFrameHdr

open EhFrameHdr

section Iterators

variable {h : EhFrameHdr}

theorem advance_natCast (base n : ℕ) :
    h.advance base n = base + 2 * n * h.hdrTblEncodedValueSize := by
  rw [EhFrameHdr.advance]
  exact_mod_cast Int.toNat_natCast _

/-- **Distances come out in bytes.** -/
theorem distanceTo_advance (boost : IteratorAdaptor) (base i j : ℕ) :
    boost.distanceTo (h.advance base i) (h.advance base j) =
      2 * h.hdrTblEncodedValueSize * ((j : ℤ) - i) := by
  rw [boost.distanceTo_eq, advance_natCast, advance_natCast]
  push_cast
  ring

/-- A table with room for a value is no sequence of entries. -/
theorem not_isSequence_of_pos (boost : IteratorAdaptor) {hostBig : Bool} {eMachine : ℕ}
    {mem : Memory} (hbytes : 0 < h.hdrTblNbytes) :
    ¬h.IsSequence boost hostBig eMachine mem := by
  intro hseq
  rcases Nat.eq_zero_or_pos h.hdrTblFdeCount.toNat with hzero | hpos
  -- without entries the end is not at the beginning
  · have hend := (boost.equal_iff _ _).1 hseq.atEnd
    rw [hzero, Nat.cast_zero, ← Nat.cast_zero, advance_natCast, hdrTblBegin, hdrTblEnd] at hend
    omega
  · have hone := hseq.difference 0 1 (Nat.zero_le _) hpos
    rw [distanceTo_advance] at hone
    omega

theorem getAddressSize_eq {eMachine version n : ℕ} (hn : getAddressSize eMachine version = .ok n) :
    n = 4 ∨ n = 8 := by
  obtain ⟨⟨⟩, -, hn⟩ := bind_eq_ok.1 hn
  split_ifs at hn
  · exact .inr (Except.ok.inj hn).symm
  · exact .inl (Except.ok.inj hn).symm

theorem readFixed_le {hostBig useHost : Bool} {n pos limit : ℕ} {mem : Memory}
    {r : BitVec 64 × ℕ} (hr : readFixed hostBig useHost n mem pos limit = .ok r) :
    pos + n ≤ limit := by
  rw [readFixed] at hr
  split_ifs at hr
  · obtain ⟨⟨⟩, hassert, -⟩ := bind_eq_ok.1 hr
    exact assert_eq_ok.1 hassert
  · obtain ⟨⟨⟩, hassert, -⟩ := bind_eq_ok.1 hr
    exact assert_eq_ok.1 hassert

/-- Where the width of a value has been found, there is room for one. -/
theorem encodingNbytes_fixed {hostBig : Bool} {encoding : Byte} {mem : Memory}
    {pos limit addressSize n : ℕ} {f : EhFormat} (haddr : addressSize = 4 ∨ addressSize = 8)
    (henc : encoding &&& ~~~0xf0 = f.code)
    (hn : encodingNbytes hostBig encoding mem pos limit addressSize = .ok n) :
    n = f.width addressSize ∧ pos + n ≤ limit := by
  have hle : pos + f.width addressSize ≤ limit := by
    rw [encodingNbytes, if_neg (encoding_ne_omit henc)] at hn
    obtain ⟨r, hr, -⟩ := bind_eq_ok.1 hn
    rw [readWithEncoding_eq haddr henc] at hr
    exact readFixed_le hr
  obtain rfl : f.width addressSize = n :=
    Except.ok.inj ((encodingNbytes_eq haddr henc hle).symm.trans hn)
  exact ⟨rfl, hle⟩

/-- What `init_eh_frame_hdr` leaves of the table. -/
theorem initEhFrameHdr_table {hostBig : Bool} {eMachine : ℕ} {mem : Memory}
    {scnData scnNbytes : ℕ} {pVaddr : BitVec 64}
    (hinit : initEhFrameHdr hostBig eMachine mem scnData scnNbytes pVaddr = .ok (some h)) :
    ∃ addressSize, getAddressSize eMachine = .ok addressSize ∧
      encodingNbytes hostBig h.hdrTblEncoding mem h.hdrTbl (h.hdrTbl + h.hdrTblNbytes)
        addressSize = .ok h.hdrTblEncodedValueSize := by
  rw [initEhFrameHdr] at hinit
  obtain ⟨⟨⟩, -, hinit⟩ := bind_eq_ok.1 hinit
  split_ifs at hinit with hversion
  · cases hinit
  · obtain ⟨addressSize, haddr, hinit⟩ := bind_eq_ok.1 hinit
    obtain ⟨⟨start, pos⟩, -, hinit⟩ := bind_eq_ok.1 hinit
    obtain ⟨⟨count, pos'⟩, -, hinit⟩ := bind_eq_ok.1 hinit
    obtain ⟨size, hsize, hinit⟩ := bind_eq_ok.1 hinit
    obtain rfl := Option.some.inj (Except.ok.inj hinit)
    exact ⟨addressSize, haddr, hsize⟩

/-- Its values have the width of the encoding, and there is room for one. -/
theorem encodedValueSize_of_init {hostBig : Bool} {eMachine : ℕ} {mem : Memory}
    {scnData scnNbytes : ℕ} {pVaddr : BitVec 64} {f : EhFormat}
    (hinit : initEhFrameHdr hostBig eMachine mem scnData scnNbytes pVaddr = .ok (some h))
    (hfixed : h.FixedWidth f) :
    ∃ addressSize, getAddressSize eMachine = .ok addressSize ∧
      h.hdrTblEncodedValueSize = f.width addressSize ∧
      h.hdrTbl + h.hdrTblEncodedValueSize ≤ h.hdrTbl + h.hdrTblNbytes := by
  obtain ⟨addressSize, haddr, hsize⟩ := initEhFrameHdr_table hinit
  exact ⟨addressSize, haddr, encodingNbytes_fixed (getAddressSize_eq haddr) hfixed.format hsize⟩

/-- **The iterators of a header are never a sequence of its entries.**  A table that is accepted
has room for a value, so that without entries the end is not the beginning, and two entries are
never one apart. -/
theorem not_isSequence (boost : IteratorAdaptor) {hostBig : Bool} {eMachine : ℕ} {mem : Memory}
    {scnData scnNbytes : ℕ} {pVaddr : BitVec 64} {f : EhFormat}
    (hinit : initEhFrameHdr hostBig eMachine mem scnData scnNbytes pVaddr = .ok (some h))
    (hfixed : h.FixedWidth f) : ¬h.IsSequence boost hostBig eMachine mem := by
  obtain ⟨addressSize, haddr, hwidth, hle⟩ := encodedValueSize_of_init hinit hfixed
  have hpos : 0 < f.width addressSize := EhFormat.width_pos (getAddressSize_eq haddr)
  exact not_isSequence_of_pos boost (by omega)

end Iterators

section Entries

variable {h : EhFrameHdr} {hostBig : Bool} {eMachine addressSize : ℕ} {mem : Memory}
  {f : EhFormat}

@[simp] theorem encode_length (useHost : Bool) (v : ℤ) :
    (f.encode hostBig useHost addressSize v).length = f.width addressSize :=
  fixedBytes_length ..

/-- The `i`th entry lies behind `i` pairs of values. -/
theorem holdsAt_tableBytes {entries : List (ℤ × ℤ)} {base : ℕ}
    (hmem : HoldsAt mem base (tableBytes hostBig addressSize f entries)) (i : ℕ)
    (hi : i < entries.length) :
    HoldsAt mem (base + 2 * i * f.width addressSize)
      (f.encode hostBig true addressSize entries[i].1 ++
        f.encode hostBig true addressSize entries[i].2) := by
  induction entries generalizing base i with
  | nil => exact absurd hi (Nat.not_lt_zero _)
  | cons p entries ih =>
    rw [tableBytes, List.flatMap_cons, holdsAt_append] at hmem
    cases i with
    | zero => simpa using hmem.1
    | succ i =>
      have hrest := ih hmem.2 i (Nat.lt_of_succ_lt_succ hi)
      rw [List.length_append, encode_length, encode_length] at hrest
      rw [show base + 2 * (i + 1) * f.width addressSize =
        base + (f.width addressSize + f.width addressSize) + 2 * i * f.width addressSize by ring]
      exact hrest

theorem tableBytes_length (entries : List (ℤ × ℤ)) :
    (tableBytes hostBig addressSize f entries).length =
      2 * entries.length * f.width addressSize := by
  induction entries with
  | nil => simp [tableBytes]
  | cons p entries ih =>
    rw [tableBytes, List.flatMap_cons, List.length_append, ← tableBytes, ih, List.length_append,
      encode_length, encode_length, List.length_cons]
    ring

/-- The narrow value that a number was cut to is the number again, as far as it is signed. -/
theorem delta_ofInt {v : ℤ} (haddr : addressSize = 4 ∨ addressSize = 8)
    (hlo : -256 ^ f.width addressSize ≤ 2 * v) (hhi : 2 * v < 256 ^ f.width addressSize) :
    delta (f.width addressSize) (BitVec.ofInt 64 (v % 256 ^ f.width addressSize)) =
      .ok (BitVec.ofInt 64 v) := by
  rcases EhFormat.width_cases haddr with hw | hw | hw <;> rw [hw] at hlo hhi ⊢
  · have hext := signExtend_setWidth_ofInt (w := 16) (by norm_num) (v := v) (by omega) (by omega)
    exact congrArg Except.ok hext
  · have hext := signExtend_setWidth_ofInt (w := 32) (by norm_num) (v := v) (by omega) (by omega)
    exact congrArg Except.ok hext
  · have hext := signExtend_setWidth_ofInt (w := 64) (by norm_num) (v := v) (by omega) (by omega)
    rw [BitVec.setWidth_eq, BitVec.signExtend_eq] at hext
    exact congrArg Except.ok hext

/-- **Advancing by `i` comes to the `i`th entry** of a table that is accepted: its location is
resolved against the section, and its address is as it was read. -/
theorem dereference_advance {scnData scnNbytes : ℕ} {pVaddr : BitVec 64} {entries : List (ℤ × ℤ)}
    (hinit : initEhFrameHdr hostBig eMachine mem scnData scnNbytes pVaddr = .ok (some h))
    (hfixed : h.FixedWidth f) (hdatarel : h.hdrTblEncoding &&& 0xf0 = 0x30)
    (haddr : getAddressSize eMachine = .ok addressSize)
    (hmem : HoldsAt mem h.hdrTbl (tableBytes hostBig addressSize f entries))
    (hroom : (tableBytes hostBig addressSize f entries).length ≤ h.hdrTblNbytes) (i : ℕ)
    (hi : i < entries.length) (hlo : -256 ^ f.width addressSize ≤ 2 * entries[i].1)
    (hhi : 2 * entries[i].1 < 256 ^ f.width addressSize) :
    h.dereference hostBig eMachine mem (h.advance h.hdrTblBegin i) =
      .ok (h.resolved entries[i].1,
        BitVec.ofInt 64 (entries[i].2 % 256 ^ f.width addressSize)) := by
  have hsizes := getAddressSize_eq haddr
  obtain ⟨addressSize', haddr', hsize, -⟩ := encodedValueSize_of_init hinit hfixed
  obtain rfl : addressSize = addressSize' := Except.ok.inj (haddr.symm.trans haddr')
  have hentry := holdsAt_tableBytes hmem i hi
  rw [holdsAt_append, encode_length] at hentry
  have hend : 2 * i * f.width addressSize + (f.width addressSize + f.width addressSize) ≤
      h.hdrTblNbytes := by
    rw [tableBytes_length] at hroom
    have hmul := Nat.mul_le_mul_right (f.width addressSize)
      (show 2 * i + 2 ≤ 2 * entries.length by omega)
    rw [Nat.add_mul] at hmul
    omega
  have hnone : ¬h.hdrTblEncoding &&& 0xf0 = 0x00 := by
    rw [hdatarel]
    decide
  rw [EhFrameHdr.dereference, EhFrameHdr.dereferenceRaw, haddr, ok_bind, advance_natCast, hsize,
    hdrTblBegin, readWithEncoding_encode hsizes hfixed.format (by omega) hentry.1, ok_bind]
  dsimp only
  rw [readWithEncoding_encode hsizes hfixed.format (by omega) hentry.2, ok_bind]
  show (if h.hdrTblEncoding &&& 0xf0 = 0x00 then _ else _) = _
  rw [if_neg hnone, if_pos hdatarel, delta_ofInt hsizes hlo hhi, EhFrameHdr.resolved,
    if_pos hdatarel]
  rfl

end Entries

/-- A section with one entry: version 1, an absolute pointer and a count of four bytes each, and a
table of `DW_EH_PE_datarel | DW_EH_PE_sdata4`. -/
def oneEntrySection : List Byte :=
  [1, 0x03, 0x03, 0x3b] ++ leBytes 4 0x100 ++ leBytes 4 1 ++ leBytes 4 0x20 ++ leBytes 4 0x120

/-- What is made of it at the address 0x1000. -/
def oneEntryHdr : EhFrameHdr where
  ehFrameSectionStart := 0x100
  hdrTblFdeCount := 1
  hdrTbl := 12
  hdrTblNbytes := 8
  hdrTblEncoding := 0x3b
  hdrTblEncodedValueSize := 4
  hdrVaddr := 0x1000

theorem initEhFrameHdr_oneEntrySection :
    initEhFrameHdr false 62 (memoryOf 0 oneEntrySection) 0 20 0x1000 = .ok (some oneEntryHdr) :=
  toOption_eq_some.1 (by decide +kernel)

/-- Its entry is for `0x1020`. -/
theorem dereference_oneEntryHdr :
    oneEntryHdr.dereference false 62 (memoryOf 0 oneEntrySection)
      (oneEntryHdr.advance oneEntryHdr.hdrTblBegin 0) = .ok (0x1020, 0x120) := by
  have hmem : HoldsAt (memoryOf 0 oneEntrySection) oneEntryHdr.hdrTbl
      (tableBytes false 8 .sdata4 [(0x20, 0x120)]) :=
    holdsAt_of_getD (by decide)
  exact dereference_advance initEhFrameHdr_oneEntrySection ⟨by decide, .inr (by decide)⟩ (by decide)
    rfl hmem (by decide) 0 (by decide) (by decide) (by decide)

/-- The pointers themselves. -/
def pointerAdaptor : IteratorAdaptor where
  equal a b := a == b
  distanceTo a b := (b : ℤ) - a
  equal_iff _ _ := beq_iff_eq
  distanceTo_eq _ _ := rfl

theorem not_isSequence_oneEntryHdr :
    ¬oneEntryHdr.IsSequence pointerAdaptor false 62 (memoryOf 0 oneEntrySection) :=
  not_isSequence pointerAdaptor (f := .sdata4) initEhFrameHdr_oneEntrySection
    ⟨by decide, .inr (by decide)⟩

/-- The end of the one entry is eight away from its beginning. -/
theorem not_hdrTbl_sequence : ¬∀ (boost : IteratorAdaptor) (hostBig : Bool) (eMachine : ℕ)
    (mem : Memory) (scnData scnNbytes : ℕ) (pVaddr : BitVec 64) (h : EhFrameHdr) (f : EhFormat),
    initEhFrameHdr hostBig eMachine mem scnData scnNbytes pVaddr = .ok (some h) →
      h.FixedWidth f → h.IsSequence boost hostBig eMachine mem := by
  intro hall
  exact not_isSequence_of_pos (h := oneEntryHdr) pointerAdaptor (by decide)
    (hall pointerAdaptor false 62 _ 0 20 0x1000 _ .sdata4 initEhFrameHdr_oneEntrySection
      ⟨by decide, .inr (by decide)⟩)

end Frame
end Dwarfpp
