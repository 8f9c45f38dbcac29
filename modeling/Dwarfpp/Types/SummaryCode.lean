/-
# Summary codes

`type_die::summary_code` of `src/dies.cpp`, and `containment_summary_code`, which
computes it from what a type contains, with the codes of other types shifted in.
What `containment_summary_code` shifts into its word does not depend on those
codes, so `containmentSummary` is the list of it, in the order of the source,
with the recursive calls left to be made: `Summary.code` makes them.

`summaryCode` keeps `cached_summary_code` in its state; `containmentSummaryCode`
is the same recursion without the cache.
-/

import Dwarfpp.Expr.Evaluator
import Dwarfpp.Types.AbstractName

namespace Dwarfpp
namespace Types

open Lib Dwarfpp.Expr

/-! ### The word -/

/-- The `val` of a `summary_code_word<uint32_t>`. -/
abbrev SummaryWord := Option (BitVec 32)

/-- `zero_check()`. -/
def zeroCheck (val : SummaryWord) : SummaryWord := val.map fun v => if v = 0 then -1 else v

/-- `operator<<(BaseType)`. -/
def shiftIn (val : SummaryWord) (arg : BitVec 32) : SummaryWord :=
  zeroCheck (val.map fun v => v.rotateLeft 8 ^^^ arg)

/-- `operator<<(const string&)`, of `char`s that are signed. -/
def shiftInString (val : SummaryWord) (s : String) : SummaryWord :=
  zeroCheck (s.toUTF8.toList.foldl
    (fun val c => shiftIn val ((BitVec.ofNat 8 c.toNat).signExtend 32)) val)

/-- `operator<<(opt<BaseType>)`. -/
def shiftInOption (val : SummaryWord) : SummaryWord → SummaryWord
  | none => none
  | some arg => shiftIn val arg

/-- One `output_word << ...`: of a number, of a string, of the code of a type that is still to be
found, or of no code. -/
inductive Shift (ι : Type)
  | value (arg : BitVec 32)
  | string (s : String)
  | code (t : Option ι)
  | invalid
  deriving DecidableEq, Repr

/-- What `containment_summary_code` comes to: the code of void, no code, the code of another type,
or a word that is shifted together. -/
inductive Summary (ι : Type)
  | zero
  | absent
  | same (t : ι)
  | shifts (l : List (Shift ι))
  deriving DecidableEq, Repr

variable {ι : Type}

section Code

variable {m : Type → Type} [Monad m] (recursiveCall : Option ι → m SummaryWord)

/-- Does one `output_word << ...`. -/
def Shift.into (word : SummaryWord) : Shift ι → m SummaryWord
  | .value arg => pure (shiftIn word arg)
  | .string s => pure (shiftInString word s)
  | .code t => do
    let code ← recursiveCall t
    return shiftInOption word code
  | .invalid => pure (shiftInOption word none)

/-- Makes the recursive calls. -/
def Summary.code : Summary ι → m SummaryWord
  | .zero => pure (some 0)
  | .absent => pure none
  | .same t => recursiveCall (some t)
  | .shifts l => l.foldlM (Shift.into recursiveCall) (some 0)

/-- `summary_code_for_type()`, for void too. -/
def summaryCodeForType (summaryCode : ι → m SummaryWord) : Option ι → m SummaryWord
  | none => pure (some 0)
  | some t => summaryCode t

end Code

/-! ### What a type contains -/

/-- The value of a tag. -/
def Tag.value : Tag → ℕ
  | .arrayType => 0x01
  | .classType => 0x02
  | .enumerationType => 0x04
  | .pointerType => 0x0f
  | .referenceType => 0x10
  | .stringType => 0x12
  | .structureType => 0x13
  | .subroutineType => 0x15
  | .typedef => 0x16
  | .unionType => 0x17
  | .ptrToMemberType => 0x1f
  | .setType => 0x20
  | .subrangeType => 0x21
  | .baseType => 0x24
  | .constType => 0x26
  | .fileType => 0x29
  | .packedType => 0x2d
  | .subprogram => 0x2e
  | .volatileType => 0x35
  | .restrictType => 0x37
  | .interfaceType => 0x38
  | .unspecifiedType => 0x3b
  | .sharedType => 0x40
  | .rvalueReferenceType => 0x42

/-- The regular expression of an identifier. -/
def isIdentifier : List Char → Bool
  | [] => false
  | c :: cs => (c.isAlpha || c = '_') && cs.all fun c => c.isAlphanum || c = '_'

/-- `HACK_NAME`: an identifier followed by `___` and digits loses these. -/
def hackName (name : String) : String :=
  match name.toList.reverse.span Char.isDigit with
  | (_ :: _, '_' :: '_' :: '_' :: base) =>
    if isIdentifier base.reverse then String.ofList base.reverse else name
  | _ => name

/-- The loop over the enumerators, `last` being `last_enum_value`. -/
def enumeratorShifts : BitVec 32 → List Enumerator → Except Fault (List (Shift ι))
  | _, [] => .ok []
  | last, e :: es => do
    let name ← deref e.name
    match e.constValue with
    | some v => do
      let rest ← enumeratorShifts (BitVec.ofInt 32 v) es
      return .string (hackName name) :: .value (BitVec.ofInt 32 v) :: rest
    | none => do
      if last = BitVec.intMax 32 then throw .undefinedBehaviour
      let rest ← enumeratorShifts (last + 1) es
      return .string (hackName name) :: .value last :: rest

namespace TypeDie

variable (d : TypeDie ι)

/-- Whether a DIE is a declaration of a type with data members. -/
def isDeclaration : Bool := d.tag.cls = .withDataMembers ∧ d.declaration = some true

/-- `byte_offset_in_enclosing_type()` of the `k`th data member. -/
def byteOffsetInEnclosingType (k : ℕ) (c : DataMember ι) : Except Fault (Option (BitVec 64)) :=
  if c.declaration = some true then .ok none
  else
    match c.dataMemberLocation with
    | none =>
      -- the first member that is no declaration, and any member of a union
      if d.dataMembers.findIdx (fun c => c.declaration ≠ some true) = k ∨ d.tag = .unionType then
        .ok (some 0)
      else .ok none
    | some [e] =>
      match (do let v ← evaluator ⟨none, none⟩ e.instrs [0]; v.tos) with
      | .error .notSupported => .ok none
      | .error f => .error f
      | .ok offset => .ok (some offset)
    | some _ => .ok none

/-- The offset of a member that the summary takes in, with `No_entry` caught. -/
def memberOffset (k : ℕ) (c : DataMember ι) : Except Fault (Option (BitVec 64)) :=
  if c.declaration = some true then .ok none
  else
    match d.byteOffsetInEnclosingType k c with
    | .error .noEntry => .ok none
    | r => r

/-- The base type of an enumeration. -/
def enumBaseType : Except Fault (Option ι) :=
  match d.type with
  | some u => .ok (some u)
  | none => d.enclosingCu.implicitEnumBaseType

/-- `address_holding_type_die::calculate_byte_size()`. -/
def addressByteSize : ℕ := d.byteSize.getD d.enclosingCu.addressSize

end TypeDie

section Contained

variable (g : TypeGraph ι)

/-- `find_definition()`. -/
def findDefinition (t : ι) : Option ι :=
  if (g t).isDeclaration then
    match (g t).name with
    | none => none
    | some name =>
      if (g t).depth = 2 then
        (g t).laterSiblings.find? fun s =>
          (g s).tag.cls = .withDataMembers ∧ (g s).name = some name ∧
            (g s).declaration ≠ some true
      else none
  else some t

/-- The loop of `find_ultimate_reached_type()`, from a concrete type. -/
def ultimateReachedType : ℕ → ι → Except Fault (Option ι)
  | 0, _ => .error .outOfSteps
  | fuel + 1, t =>
    if (g t).tag.addressHolding then
      match (g t).type with
      | none => .ok none
      | some u => do
        match ← getConcreteType g fuel u with
        | none => return none
        | some next => ultimateReachedType fuel next
    else .ok (some t)

/-- `find_ultimate_reached_type()`. -/
def findUltimateReachedType (fuel : ℕ) (t : ι) : Except Fault (Option ι) := do
  let pointee ← ultimateReachedType g fuel t
  return pointee.map fun u => (findDefinition g u).getD u

/-- `incorporate_type`, and the like for a member: a type that holds an address is represented by
its abstract name. -/
def incorporateType (fuel : ℕ) : Option ι → Except Fault (Shift ι)
  | none => .ok (.code none)
  | some t => do
    match ← getConcreteType g fuel t with
    | some c =>
      if (g c).tag.addressHolding then
        let name ← abstractName g fuel (some c)
        return .string name
      else return .code (some t)
    | none => return .code (some t)

/-- What one data member adds. -/
def memberShifts (fuel : ℕ) (d : TypeDie ι) (k : ℕ) (c : DataMember ι) :
    Except Fault (List (Shift ι)) := do
  match ← d.memberOffset k c with
  | none => return []
  | some offset =>
    match c.type with
    | none => throw .assertFailed
    | some u => do
      let shift ← incorporateType g fuel (some u)
      return [.value (offset.setWidth 32), shift]

/-- The element of an array. -/
def elementShift (fuel : ℕ) : Option ι → Except Fault (Shift ι)
  | none => .ok .invalid
  | some el =>
    if (g el).tag.addressHolding then do
      let name ← abstractName g fuel (some el)
      return .string name
    else .ok (.code (some el))

/-- A number, as it is shifted in. -/
def Shift.nat (n : ℕ) : Shift ι := .value (BitVec.ofNat 32 n)

/-- `containment_summary_code()` of a concrete type that is no declaration. -/
def concreteSummary (fuel : ℕ) (t : ι) : Except Fault (Summary ι) :=
  match (g t).tag.cls with
  | .base => do
    assert ((g t).byteSize.isSome)
    let byteSize := (g t).byteSize.getD 0
    let bitSize := (g t).bitSize.getD (byteSize * 8)
    return .shifts [.nat Tag.baseType.value, .nat (g t).encoding, .nat byteSize, .nat bitSize,
      .nat ((g t).bitOffset.getD 0)]
  | .enumeration => do
    let enumerators ← enumeratorShifts (-1) (g t).enumerators
    let base ← (g t).enumBaseType
    return .shifts (.string (g t).arbitraryName :: (enumerators ++
      base.toList.map fun u => .code (some u)))
  | .subrange =>
    .ok (.shifts (((g t).type.toList.map fun u => .code (some u)) ++
      ((g t).upperBound.toList.map .nat ++ (g t).lowerBound.toList.map .nat)))
  | .typeDescribingSubprogram => do
    let result ← incorporateType g fuel (g t).type
    let arguments ← (g t).formalParameters.mapM fun fp => incorporateType g fuel fp.findType
    return .shifts (result :: .string "()" :: (arguments ++
      if (g t).isVariadic then [.string "..."] else []))
  | .typeChain => do
    let pointee ← findUltimateReachedType g fuel t
    if pointee.any fun u => (g u).isDeclaration then return .absent
    else do
      assert ((g t).addressClass.getD 0 = 0)
      return .shifts [.nat (g t).tag.value, .nat (g t).addressByteSize, .nat 0,
        .code (g t).findType]
  | .withDataMembers => do
    let members ← (g t).dataMembers.zipIdx.mapM fun (c, k) => memberShifts g fuel (g t) k c
    return .shifts (.string (g t).arbitraryName :: members.flatten)
  | .array => do
    let elementType ← ultimateElementType g fuel t
    let elementCount ← ultimateElementCount g fuel 1 t
    let element ← elementShift g fuel elementType
    return .shifts [element, .nat (elementCount.getD 0)]
  | .string => do
    let byteLength ← match (g t).stringLength with
      | some _ => .ok 0
      | none =>
        match (g t).fixedLengthInBytes with
        | some n => .ok n
        | none => .error .assertFailed
    return .shifts [.nat Tag.stringType.value, .nat byteLength]
  | .unspecified => .ok .absent
  -- `abort()`
  | .typedef | .ptrToMember => .error .assertFailed

end Contained

section Codes

variable [DecidableEq ι] (g : TypeGraph ι)

/-- `containment_summary_code()`, short of its recursive calls. -/
def containmentSummary (fuel : ℕ) (t : ι) : Except Fault (Summary ι) := do
  match ← getConcreteType g fuel t with
  | none => return .zero
  | some concrete =>
    if concrete ≠ t then return .same concrete
    else if (g t).isDeclaration then
      match findDefinition g t with
      | some found => return .same found
      | none => return .absent
    else concreteSummary g fuel t

/-- `summary_code()` without its cache. -/
def containmentSummaryCode : ℕ → ι → Except Fault SummaryWord
  | 0, _ => .error .outOfSteps
  | fuel + 1, t => do
    let summary ← containmentSummary g fuel t
    summary.code (summaryCodeForType (containmentSummaryCode fuel))

/-- The `cached_summary_code` of each type. -/
abbrev SummaryCache (ι : Type) := ι → Option (BitVec 32)

/-- `summary_code()`. -/
def summaryCode : ℕ → ι → StateT (SummaryCache ι) (Except Fault) SummaryWord
  | 0, _ => throw .outOfSteps
  | fuel + 1, t => do
    match (← get) t with
    | some code => return some code
    | none => do
      let summary ← (containmentSummary g fuel t : Except Fault (Summary ι))
      let computed ← summary.code (summaryCodeForType (summaryCode fuel))
      modify fun cache => Function.update cache t computed
      return computed

end Codes

end Types
end Dwarfpp
