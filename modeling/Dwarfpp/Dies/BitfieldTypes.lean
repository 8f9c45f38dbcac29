/-
# The base types of bitfields

A bitfield member has a base type, and a size and an offset in bits that need not be its
own type's.  `find_or_create_type_handling_bitfields` of `src/dies.cpp` looks among the
visible DIEs of all units for a base type of that name with these bits, and
makes one in memory, in a CU of its own, where there is none.

Members are told by their offsets.  The `synthetic_cu` of the root is passed along.
-/

import Dwarfpp.Dies.VisibleNameRuns

namespace Dwarfpp
namespace Dies

open Lib
open Lib.Preorder hiding firstChild nextSibling

/-- `DW_AT_byte_size`. -/
def dwAtByteSize : ℕ := 0x0b
/-- `DW_AT_bit_offset`. -/
def dwAtBitOffset : ℕ := 0x0c
/-- `DW_AT_bit_size`. -/
def dwAtBitSize : ℕ := 0x0d
/-- `DW_AT_language`. -/
def dwAtLanguage : ℕ := 0x13
/-- `DW_AT_encoding`. -/
def dwAtEncoding : ℕ := 0x3e
/-- `DW_AT_type`. -/
def dwAtType : ℕ := 0x49
/-- `DW_AT_data_bit_offset`. -/
def dwAtDataBitOffset : ℕ := 0x6b

/-- `DW_TAG_base_type`. -/
def dwTagBaseType : ℕ := 0x24

/-- `DW_LANG_C`. -/
def dwLangC : ℕ := 0x02

/-- The conversion to `unsigned`. -/
def toUnsigned (n : ℕ) : ℕ := n % 2 ^ 32

section Bits

variable (attrs : ℕ → AttributeMap) (off : ℕ)

/-- The getter of an optional attribute that is `unsigned`. -/
def getUnsigned (a : ℕ) : Option ℕ :=
  match (attrs off).find a with
  | some (.other n) => some n
  | _ => none

/-- The bytes that so many bits take. -/
def bytesForBits (n : ℕ) : ℕ := if n % 8 = 0 then n / 8 else 1 + n / 8

/-- `calculate_byte_size()` of a base type. -/
def calculateByteSize : Option ℕ :=
  (getUnsigned attrs off dwAtByteSize).or
    ((getUnsigned attrs off dwAtBitSize).map bytesForBits)

/-- `bit_size_and_offset()`.  Without a byte size, the null option is dereferenced. -/
def bitSizeAndOffset : Option (ℕ × ℕ) :=
  let bitSize := (getUnsigned attrs off dwAtBitSize).or
    ((calculateByteSize attrs off).map fun n => 8 * n)
  let bitOffset := ((getUnsigned attrs off dwAtDataBitOffset).or
    (getUnsigned attrs off dwAtBitOffset)).getD 0
  bitSize.map fun n => (toUnsigned n, toUnsigned bitOffset)

/-- Whether the member has one of the attributes of bitfields. -/
def isBitfield : Bool :=
  (getUnsigned attrs off dwAtBitSize).isSome || (getUnsigned attrs off dwAtBitOffset).isSome ||
    (getUnsigned attrs off dwAtDataBitOffset).isSome

/-- `effective_bit_size` and `effective_bit_offset` of a member whose type has the bits given. -/
def effectiveBits (bits : ℕ × ℕ) : ℕ × ℕ :=
  ((getUnsigned attrs off dwAtBitSize).getD bits.1,
    ((getUnsigned attrs off dwAtDataBitOffset).or (getUnsigned attrs off dwAtBitOffset)).getD
      bits.2)

end Bits

section Model

/-- `is_a<T>()`, where `T` has one tag. -/
def isA (tag : ℕ) (it : Iterator) : RootM Bool := do
  specHere it
  let r ← get
  return r.tagHere it.offset = tag

/-- `as_a<T>()`. -/
def asA (tag : ℕ) (it : Iterator) : RootM (Option Iterator) := do
  if ← isA tag it then return some it
  else return none

/-- `find_attr`, through at most so many DIEs.  They are without data members, and so each is its own
definition. -/
def findAttrOf : ℕ → ℕ → ℕ → RootM (Option (AttributeValue ℕ ℕ))
  | 0, _, _ => throw .outOfSteps
  | n + 1, off, a => do
    let r ← get
    match (r.tables.attrs off).find a, (r.tables.attrs off).find dwAtAbstractOrigin,
      (r.tables.attrs off).find dwAtSpecification with
    | some v, _, _ => return some v
    | none, some v, _ => do
      let target ← v.getRefiter
      let origin ← pos target none none none
      findAttrOf n origin.offset a
    | none, none, some v => do
      let target ← v.getRefiter
      let decl ← pos target none none none
      let r ← get
      return (r.tables.attrs decl.offset).find a
    | none, none, none => return none

variable (fuel : ℕ)

/-- `find_type()`. -/
def findType (off : ℕ) : RootM (Option Iterator) := do
  match ← findAttrOf fuel off dwAtType with
  | some (.ref target) => return some (← pos target none none none)
  | _ => return none

/-- The loop of `print_tree`.  A DIE is printed with its spec's names. -/
def printFrom (startOffset startDepth : ℕ) : ℕ → Option Iterator → RootM Unit
  | 0, _ => throw .outOfSteps
  | _ + 1, none => return ()
  | n + 1, some it => do
    let it ← withDepth fuel it
    if it.offset = startOffset ∨ it.depth.any (startDepth < ·) then
      specHere it
      let next ← dfIncrement fuel it
      printFrom startOffset startDepth n next
    else return ()

/-- `print_tree`: what it does to the root. -/
def printTree (it : Iterator) : RootM Unit := do
  let it ← withDepth fuel it
  printFrom fuel it.offset (it.depth.getD 0) fuel (some it)

variable (hasCase : ℕ → Bool)

/-- `get_or_create_synthetic_cu`: the CU, and `synthetic_cu` after it. -/
def getOrCreateSyntheticCu : Option ℕ → RootM (Option Iterator × Option ℕ)
  | some off => do
    match ← find fuel off none false with
    | some found => return (← asA dwTagCompileUnit found, some off)
    | none => return (none, some off)
  | none => do
    let created ← makeNew fuel hasCase Root.begin dwTagCompileUnit
    insertAttribute fuel created.offset dwAtLanguage (.other dwLangC)
    insertAttribute fuel created.offset dwAtName (.string "dwarfpp.synthetic")
    return (← asA dwTagCompileUnit created, some created.offset)

/-- The base type created, below the CU. -/
def createBelow (cu : Iterator) (name : String) (size offset : ℕ) (bt : Iterator) :
    RootM Iterator := do
  let created ← makeNew fuel hasCase cu dwTagBaseType
  insertAttribute fuel created.offset dwAtName (.string name)
  insertAttribute fuel created.offset dwAtBitSize (.other size)
  insertAttribute fuel created.offset dwAtDataBitOffset (.other offset)
  let r ← get
  match getUnsigned r.tables.attrs bt.offset dwAtEncoding with
  | none => throw .assertFailed
  | some encoding =>
    insertAttribute fuel created.offset dwAtEncoding (.other encoding)
    let byteSize := bytesForBits ((offset + size) % 2 ^ 64)
    insertAttribute fuel created.offset dwAtByteSize (.other byteSize)
    printTree fuel cu
    return created

/-- `case 0`: what is created, and `synthetic_cu` after it. -/
def createBaseType (name : String) (size offset : ℕ) (bt : Iterator) (syntheticCu : Option ℕ) :
    RootM (Iterator × Option ℕ) := do
  match ← getOrCreateSyntheticCu fuel hasCase syntheticCu with
  | (none, _) => throw .undefinedBehaviour
  | (some cu, syntheticCu) =>
    let created ← createBelow fuel hasCase cu name size offset bt
    return (created, syntheticCu)

/-- `not_equal_in_bits`, denied. -/
def equalInBits (size offset : ℕ) (it : Iterator) : RootM Bool := do
  match ← asA dwTagBaseType it with
  | none => return false
  | some other =>
    let r ← get
    match bitSizeAndOffset r.tables.attrs other.offset with
    | none => throw .undefinedBehaviour
    | some bits => return bits = (size, offset)

/-- `std::remove_if`: what is kept. -/
def keepEqualInBits (size offset : ℕ) : List Iterator → RootM (List Iterator)
  | [] => return []
  | it :: its => do
    let equal ← equalInBits size offset it
    let kept ← keepEqualInBits size offset its
    return if equal then it :: kept else kept

variable (srk : Srk31 fuel)

/-- The search among the visible DIEs of that name, and what follows from it. -/
def findOrCreateNamed (name : String) (size offset : ℕ) (bt : Iterator) (syntheticCu : Option ℕ) :
    RootM (Iterator × Option ℕ) := do
  let allFound ← findAllVisibleGrandchildrenNamed fuel srk name
  match ← keepEqualInBits size offset allFound with
  | first :: _ => return (first, syntheticCu)
  | [] => createBaseType fuel hasCase name size offset bt syntheticCu

/-- `find_or_create_type_handling_bitfields` of the member at `m`: the type, and `synthetic_cu` after
it. -/
def findOrCreateTypeHandlingBitfields (m : ℕ) (syntheticCu : Option ℕ) :
    RootM (Option Iterator × Option ℕ) := do
  let r ← get
  let t ← findType fuel m
  if !isBitfield r.tables.attrs m then return (t, syntheticCu)
  else
    match t with
    | none => return (none, syntheticCu)
    | some bt =>
      if ← isA dwTagBaseType bt then
        let r ← get
        match bitSizeAndOffset r.tables.attrs bt.offset, nameOf r.tables.attrs bt.offset with
        | none, _ => throw .undefinedBehaviour
        | some _, none => return (some bt, syntheticCu)
        | some bits, some name =>
          let (size, offset) := effectiveBits r.tables.attrs m bits
          let (t, syntheticCu) ← findOrCreateNamed fuel hasCase srk name size offset bt syntheticCu
          return (some t, syntheticCu)
      else return (some bt, syntheticCu)

end Model

end Dies
end Dwarfpp
