/-
# Local type equality

The overrides of `may_equal` in `src/dies.cpp`.  Each compares what its class of
type DIE says itself and asks `equal` about the types it refers to.  That
question is a parameter here, and so is the monad: the caller may keep a cache.

`LocallyEqual` is the condition each override decides, for an arbitrary answer
to the questions.
-/

import Dwarfpp.Lib.Returns
import Dwarfpp.Types.Graph

namespace Dwarfpp
namespace Types

open Lib Dwarfpp.Expr

/-- `equal_result_t`. -/
inductive EqualResult
  | unequal
  | equalByAssumption
  | equal
  deriving DecidableEq, Repr

/-- `assuming_equal`. -/
abbrev Assumptions (ι : Type) := List (ι × ι)

/-- The comparison of two referenced types: `a->equal(b, assuming_equal)`. -/
abbrev Compare (m : Type → Type) (ι : Type) := ι → Option ι → Assumptions ι → m EqualResult

section MayEqual

variable {m : Type → Type} [Monad m] [MonadExceptOf Fault m] {ι : Type} [DecidableEq ι]
variable (g : TypeGraph ι) (fuel : ℕ) (equal : Compare m ι)

/-- `EQUAL` or `UNEQUAL`. -/
def EqualResult.ofBool (b : Bool) : EqualResult := if b then .equal else .unequal

/-- "Presence equal, and if we have one, it should equal theirs." -/
def referencesEqual (asm : Assumptions ι) : Option ι → Option ι → m EqualResult
  | none, none => pure .equal
  | some a, some b => equal a (some b) asm
  | _, _ => pure .unequal

/-- `base_type_die::may_equal`. -/
def baseMayEqual (self t : TypeDie ι) : m EqualResult :=
  pure (.ofBool (self.tag = t.tag ∧ self.name = t.name ∧ self.encoding = t.encoding ∧
    self.byteSize = t.byteSize ∧ self.bitSize = t.bitSize ∧ self.bitOffset = t.bitOffset))

/-- `unspecified_type_die::may_equal`. -/
def unspecifiedMayEqual (self t : TypeDie ι) : m EqualResult :=
  pure (.ofBool (t.tag = self.tag))

/-- `string_type_die::may_equal`. -/
def stringMayEqual (self t : TypeDie ι) : m EqualResult :=
  pure (.ofBool (self.tag = t.tag ∧ self.name = t.name ∧ t.stringLength = self.stringLength ∧
    (self.stringLength = none → self.byteSize = t.byteSize)))

/-- `subrange_type_die::may_equal`. -/
def subrangeMayEqual (self t : TypeDie ι) (asm : Assumptions ι) : m EqualResult := do
  if self.tag = t.tag ∧ self.name = t.name then
    let typesEqual ← referencesEqual equal asm self.type t.type
    return .ofBool (typesEqual ≠ .unequal ∧ self.lowerBound = t.lowerBound ∧
      self.upperBound = t.upperBound ∧ self.count = t.count)
  else return .unequal

/-- `enumeration_type_die::may_equal`. -/
def enumerationMayEqual (self t : TypeDie ι) (asm : Assumptions ι) : m EqualResult := do
  if self.tag = t.tag ∧ self.name = t.name then
    let typesEqual ← referencesEqual equal asm self.type t.type
    return .ofBool (typesEqual ≠ .unequal ∧ self.enumerators = t.enumerators)
  else return .unequal

/-- The loop of `array_type_die::may_equal` over the subranges.  Its presence test compares our
subrange with itself, so that one with no type goes with any of theirs. -/
def subrangesMayEqual (asm : Assumptions ι) : List ι → List ι → m Bool
  | [], [] => return true
  | ours :: os, theirs :: ts =>
    match (g ours).type with
    | none => subrangesMayEqual asm os ts
    | some a => do
      let typesEqual ← equal a (g theirs).type asm
      if typesEqual ≠ .unequal then subrangesMayEqual asm os ts else return false
  | _, _ => return false

/-- `array_type_die::may_equal`. -/
def arrayMayEqual (self t : TypeDie ι) (asm : Assumptions ι) : m EqualResult := do
  if self.tag = t.tag ∧ self.name = t.name then
    if ← subrangesMayEqual g equal asm self.subranges t.subranges then
      match self.type with
      | none => throw .assertFailed
      | some a => do
        let typesEqual ← equal a t.type asm
        return .ofBool (typesEqual ≠ .unequal)
    else return .unequal
  else return .unequal

/-- `type_chain_die::may_equal`: an equality by assumption of the targets is returned as
`EQUAL`. -/
def typeChainMayEqual (self t : TypeDie ι) (asm : Assumptions ι) : m EqualResult := do
  if self.tag = t.tag then
    let subEqual ← referencesEqual equal asm self.type t.type
    return .ofBool (subEqual ≠ .unequal)
  else return .unequal

/-- `typedef_die::may_equal`. -/
def typedefMayEqual (self t : TypeDie ι) (asm : Assumptions ι) : m EqualResult :=
  match self.name with
  | none => throw .assertFailed
  | some name =>
    if t.tag = .typedef ∧ t.name = some name then typeChainMayEqual equal self t asm
    else return .unequal

/-- `ptr_to_member_type_die::may_equal`. -/
def ptrToMemberMayEqual (self : TypeDie ι) (t : ι) (asm : Assumptions ι) : m EqualResult := do
  match ← ofExcept (getConcreteType g fuel t) with
  | none => return .unequal
  | some otherT =>
    if (g otherT).tag = .ptrToMemberType then
      match (g otherT).type with
      | none => throw .assertFailed
      | some a => do
        let typesEqual ← equal a self.type asm
        return .ofBool (typesEqual ≠ .unequal)
    else return .unequal

/-- The loop of `with_data_members_die::may_equal` over the members.  `asm` is `assuming_equal`
and `recursive` the set passed on, with the pair at hand in it. -/
def membersMayEqual (asm recursive : Assumptions ι) :
    List (DataMember ι) → List (DataMember ι) → EqualResult → m EqualResult
  | [], [], ret => return ret
  | ours :: os, theirs :: ts, ret =>
    match ours.typeHandlingBitfields, theirs.typeHandlingBitfields with
    | some ourType, some theirType => do
      let subResult ← equal ourType (some theirType) recursive
      if subResult = .unequal then return .unequal
      else if ours.dataMemberLocation = theirs.dataMemberLocation then
        membersMayEqual asm recursive os ts
          (if subResult = .equalByAssumption ∧ asm ≠ [] then .equalByAssumption else ret)
      else return .unequal
    | _, _ => throw .assertFailed
  | _, _, _ => return .unequal

/-- `with_data_members_die::may_equal`. -/
def withDataMembersMayEqual (self t : ι) (asm : Assumptions ι) : m EqualResult :=
  if (g self).tag = (g t).tag ∧ (g self).name = (g t).name ∧
      ((g self).name = none → (g self).associatedName = (g t).associatedName) then
    membersMayEqual equal asm (asm.insert (self, t)) (g self).members (g t).members .equal
  else return .unequal

/-- The loop of `type_describing_subprogram_die::may_equal` over the formal parameters. -/
def formalParametersMayEqual (asm : Assumptions ι) :
    List (FormalParameter ι) → List (FormalParameter ι) → EqualResult → m EqualResult
  | [], [], ret => return ret
  | ours :: os, theirs :: ts, ret =>
    match theirs.type, ours.type with
    | some theirType, some ourType => do
      let subResult ← equal theirType (some ourType) asm
      if subResult = .unequal then return .unequal
      else
        formalParametersMayEqual asm os ts
          (if subResult = .equalByAssumption then .equalByAssumption else ret)
    | _, _ => throw .assertFailed
  | _, _, _ => return .unequal

/-- `type_describing_subprogram_die::may_equal`. -/
def typeDescribingSubprogramMayEqual (self t : TypeDie ι) (asm : Assumptions ι) :
    m EqualResult := do
  if self.tag = t.tag ∧ self.name = t.name then
    let returnTypesEqual ← referencesEqual equal asm self.type t.type
    if returnTypesEqual ≠ .unequal ∧ self.isVariadic = t.isVariadic then
      formalParametersMayEqual equal asm self.formalParameters t.formalParameters returnTypesEqual
    else return .unequal
  else return .unequal

/-- `may_equal`, as `self`'s class overrides it. -/
def mayEqual (self t : ι) (asm : Assumptions ι) : m EqualResult :=
  match (g self).tag.cls with
  | .base => baseMayEqual (g self) (g t)
  | .unspecified => unspecifiedMayEqual (g self) (g t)
  | .string => stringMayEqual (g self) (g t)
  | .subrange => subrangeMayEqual equal (g self) (g t) asm
  | .enumeration => enumerationMayEqual equal (g self) (g t) asm
  | .array => arrayMayEqual g equal (g self) (g t) asm
  | .typedef => typedefMayEqual equal (g self) (g t) asm
  | .ptrToMember => ptrToMemberMayEqual g fuel equal (g self) t asm
  | .typeChain => typeChainMayEqual equal (g self) (g t) asm
  | .withDataMembers => withDataMembersMayEqual g equal self t asm
  | .typeDescribingSubprogram => typeDescribingSubprogramMayEqual equal (g self) (g t) asm

end MayEqual

end Types
end Dwarfpp
